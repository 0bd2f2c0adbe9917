import PropSat.Proofs.Assignment
import PropSat.TruthTable

/-!
# Rows of a truth table

The rows of a table are the completions of the empty valuation. The completions of a partial
valuation are met in the same order, so the first of them with a property is the first row with it
as soon as every such row keeps the partial valuation.
-/

namespace PropSat

namespace Valuation

section

variable {α : Type} [Atom α] {u v w : Valuation α}

theorem Extends.trans (h : w.Extends v) (k : v.Extends u) : w.Extends u :=
  fun a b hu => h a b (k a b hu)

theorem Extends.mem (h : w.Extends v) {a : α} (ha : a ∈ v) : a ∈ w :=
  mem_of_getElem?_eq_some (h a v[a] (Std.ExtTreeMap.getElem?_eq_some_getElem ha))

theorem extends_insert_iff {a : α} {b : Bool} (ha : a ∉ v) :
    w.Extends (v.insert a b) ↔ w[a]? = some b ∧ w.Extends v := by
  unfold Extends
  simp only [Std.ExtTreeMap.getElem?_insert, Std.LawfulEqOrd.compare_eq_iff_eq]
  constructor
  · intro h
    refine ⟨h a b (if_pos rfl), fun c x hc => h c x ?_⟩
    have hne : a ≠ c := by
      rintro rfl
      rw [Std.ExtTreeMap.getElem?_eq_none ha] at hc
      contradiction
    rwa [if_neg hne]
  · intro hand c x hc
    by_cases hac : a = c
    · rw [if_pos hac] at hc
      cases hc
      exact hac ▸ hand.1
    · rw [if_neg hac] at hc
      exact hand.2 c x hc

theorem insert_comm {a b : α} (h : a ≠ b) (x y : Bool) :
    (v.insert b y).insert a x = (v.insert a x).insert b y := by
  apply Std.ExtTreeMap.ext_getElem?
  intro c
  simp only [Std.ExtTreeMap.getElem?_insert, Std.LawfulEqOrd.compare_eq_iff_eq]
  grind

/-- A valuation of no further atoms is not a proper extension. -/
theorem Extends.eq (h : w.Extends v) (hdom : ∀ a ∈ w, a ∈ v) : w = v := by
  apply Std.ExtTreeMap.ext_getElem?
  intro a
  cases hv : v[a]? with
  | some b => exact h a b hv
  | none =>
      have hnot : a ∉ v := by
        rw [Std.ExtTreeMap.mem_iff_isSome_getElem?, hv]
        exact Bool.false_ne_true
      exact Std.ExtTreeMap.getElem?_eq_none fun hw => hnot (hdom a hw)

end

/-- The valuations that keep a given one and have a value for each of the names, in lexicographic
order with true before false. -/
def completions : List String → Valuation String → List (Valuation String)
  | [], v => [v]
  | name :: names, v =>
      if name ∈ v then completions names v
      else completions names (v.insert name true) ++ completions names (v.insert name false)

/-- Makes the names without a value true. -/
def fillTrue (names : List String) (v : Valuation String) : Valuation String :=
  names.foldl (fun w name => if name ∈ w then w else w.insert name true) v

variable {name : String} {names : List String} {u v w : Valuation String}

theorem completions_of_mem (h : name ∈ v) :
    completions (name :: names) v = completions names v := by
  rw [completions, if_pos h]

theorem completions_of_notMem (h : name ∉ v) :
    completions (name :: names) v =
      completions names (v.insert name true) ++ completions names (v.insert name false) := by
  rw [completions, if_neg h]

theorem mem_completions_of_notMem (h : name ∉ v) :
    w ∈ completions (name :: names) v ↔ ∃ b, w ∈ completions names (v.insert name b) := by
  rw [completions_of_notMem h, List.mem_append]
  exact ⟨fun hor => hor.elim (⟨true, ·⟩) (⟨false, ·⟩),
    fun ⟨b, hb⟩ => by cases b with
      | true => exact .inl hb
      | false => exact .inr hb⟩

theorem mem_or_mem_cons_of_mem {a : String} (h : name ∈ v) :
    a ∈ v ∨ a ∈ name :: names ↔ a ∈ v ∨ a ∈ names := by
  rw [List.mem_cons, or_left_comm]
  refine or_iff_right_of_imp ?_
  rintro rfl
  exact .inl h

theorem mem_insert_or_mem {a : String} {b : Bool} :
    a ∈ v.insert name b ∨ a ∈ names ↔ a ∈ v ∨ a ∈ name :: names := by
  rw [Std.ExtTreeMap.mem_insert, Std.LawfulEqOrd.compare_eq_iff_eq, List.mem_cons, or_assoc,
    or_left_comm, eq_comm]

/-- The completions are the extensions that give a value to the names and to nothing else. -/
theorem mem_completions :
    w ∈ completions names v ↔ w.Extends v ∧ ∀ a, a ∈ w ↔ a ∈ v ∨ a ∈ names := by
  induction names generalizing v with
  | nil =>
      rw [completions, List.mem_singleton]
      constructor
      · rintro rfl
        exact ⟨.refl w, by simp⟩
      · intro hand
        exact hand.1.eq fun a ha => ((hand.2 a).mp ha).resolve_right List.not_mem_nil
  | cons name names ih =>
      by_cases hname : name ∈ v
      · simp only [completions_of_mem hname, ih, mem_or_mem_cons_of_mem hname]
      · simp only [mem_completions_of_notMem hname, ih, extends_insert_iff hname, mem_insert_or_mem]
        constructor
        · rintro ⟨b, ⟨-, hext⟩, hiff⟩
          exact ⟨hext, hiff⟩
        · rintro ⟨hext, hiff⟩
          have hw : name ∈ w := (hiff name).mpr (.inr List.mem_cons_self)
          exact ⟨w[name], ⟨Std.ExtTreeMap.getElem?_eq_some_getElem hw, hext⟩, hiff⟩

theorem completions_filter {q : String → Bool} (h : ∀ n ∈ names, q n = false → n ∈ v) :
    completions (names.filter q) v = completions names v := by
  induction names generalizing v with
  | nil => rfl
  | cons name names ih =>
      have hrest : ∀ n ∈ names, q n = false → n ∈ v :=
        fun n hn => h n (List.mem_cons_of_mem name hn)
      cases hq : q name with
      | false =>
          have hname : name ∈ v := h name List.mem_cons_self hq
          rw [List.filter_cons_of_neg (by simp [hq]), ih hrest, completions_of_mem hname]
      | true =>
          rw [List.filter_cons_of_pos hq]
          by_cases hname : name ∈ v
          · rw [completions_of_mem hname, completions_of_mem hname, ih hrest]
          · have hins : ∀ b, ∀ n ∈ names, q n = false → n ∈ v.insert name b :=
              fun b n hn hqn => Std.ExtTreeMap.mem_insert.mpr (.inr (hrest n hn hqn))
            rw [completions_of_notMem hname, completions_of_notMem hname, ih (hins true),
              ih (hins false)]

theorem fillTrue_of_mem (h : name ∈ v) : fillTrue (name :: names) v = fillTrue names v := by
  rw [fillTrue, List.foldl_cons, if_pos h, ← fillTrue]

theorem fillTrue_of_notMem (h : name ∉ v) :
    fillTrue (name :: names) v = fillTrue names (v.insert name true) := by
  rw [fillTrue, List.foldl_cons, if_neg h, ← fillTrue]

theorem head?_completions (names : List String) (v : Valuation String) :
    (completions names v).head? = some (fillTrue names v) := by
  induction names generalizing v with
  | nil => rfl
  | cons name names ih =>
      by_cases hname : name ∈ v
      · rw [completions_of_mem hname, fillTrue_of_mem hname, ih]
      · rw [completions_of_notMem hname, List.head?_append, ih, Option.some_or,
          fillTrue_of_notMem hname]

theorem fillTrue_filter {q : String → Bool} (h : ∀ n ∈ names, q n = false → n ∈ v) :
    fillTrue (names.filter q) v = fillTrue names v := by
  have hhead := congrArg List.head? (completions_filter h)
  rw [head?_completions, head?_completions] at hhead
  exact Option.some.inj hhead

theorem find?_completions_of_forall {p : Valuation String → Bool}
    (h : ∀ w ∈ completions names v, p w = true) :
    (completions names v).find? p = some (fillTrue names v) := by
  have hhead := head?_completions names v
  cases hc : completions names v with
  | nil =>
      rw [hc] at hhead
      contradiction
  | cons w ws =>
      rw [hc] at h hhead
      rw [List.find?_cons_of_pos (h w List.mem_cons_self)]
      exact hhead

/-- Where every completion with the property keeps a larger valuation, the first of them is found
among the completions of the larger one. -/
theorem find?_completions_of_extends {p : Valuation String → Bool} (huv : u.Extends v)
    (hdom : ∀ a ∈ u, a ∈ v ∨ a ∈ names)
    (hp : ∀ w ∈ completions names v, p w = true → w.Extends u) :
    (completions names v).find? p = (completions names u).find? p := by
  induction names generalizing v u with
  | nil => rw [huv.eq fun a ha => (hdom a ha).resolve_right List.not_mem_nil]
  | cons name names ih =>
      by_cases hv : name ∈ v
      · rw [completions_of_mem hv] at hp
        rw [completions_of_mem hv, completions_of_mem (huv.mem hv)]
        exact ih huv (fun a ha => (mem_or_mem_cons_of_mem hv).mp (hdom a ha)) hp
      have hp : ∀ b, ∀ w ∈ completions names (v.insert name b), p w = true → w.Extends u :=
        fun b w hw => hp w ((mem_completions_of_notMem hv).mpr ⟨b, hw⟩)
      have hkeeps : ∀ {b w}, w ∈ completions names (v.insert name b) → w[name]? = some b :=
        fun hw => ((extends_insert_iff hv).mp (mem_completions.mp hw).1).1
      have hdom : ∀ b, ∀ a ∈ u, a ∈ v.insert name b ∨ a ∈ names :=
        fun b a ha => mem_insert_or_mem.mpr (hdom a ha)
      rw [completions_of_notMem hv, List.find?_append]
      by_cases hu : name ∈ u
      · -- the larger valuation settles the name, so the other half has no completion of it
        obtain ⟨x, hx⟩ : ∃ x, u[name]? = some x :=
          ⟨_, Std.ExtTreeMap.getElem?_eq_some_getElem hu⟩
        have hsame := ih ((extends_insert_iff hv).mpr ⟨hx, huv⟩) (hdom x) (hp x)
        have hother : ∀ b, b ≠ x → (completions names (v.insert name b)).find? p = none := by
          intro b hb
          refine List.find?_eq_none.mpr fun w hw hpw => hb ?_
          have hget := hp b w hw hpw name x hx
          rw [hkeeps hw] at hget
          exact Option.some.inj hget
        rw [completions_of_mem hu, ← hsame]
        cases x with
        | true => rw [hother false Bool.false_ne_true, Option.or_none]
        | false => rw [hother true Bool.false_ne_true.symm, Option.none_or]
      · have hhalf : ∀ b, (completions names (v.insert name b)).find? p =
            (completions names (u.insert name b)).find? p := by
          intro b
          obtain ⟨hget, hext⟩ := (extends_insert_iff hu).mp (.refl (u.insert name b))
          refine ih ((extends_insert_iff hv).mpr ⟨hget, hext.trans huv⟩) (fun a ha => ?_) ?_
          · rw [Std.ExtTreeMap.mem_insert, Std.LawfulEqOrd.compare_eq_iff_eq] at ha
            rcases ha with rfl | ha
            · exact .inl Std.ExtTreeMap.mem_insert_self
            · exact hdom b a ha
          · exact fun w hw hpw => (extends_insert_iff hu).mpr ⟨hkeeps hw, hp b w hw hpw⟩
        rw [completions_of_notMem hu, List.find?_append, hhalf true, hhalf false]

theorem map_insert_completions {b : Bool} (h : name ∉ names) (v : Valuation String) :
    (completions names v).map (·.insert name b) = completions names (v.insert name b) := by
  induction names generalizing v with
  | nil => rfl
  | cons n names ih =>
      obtain ⟨hne, hrest⟩ := not_or.mp (mt List.mem_cons.mpr h)
      have hmem : n ∈ v.insert name b ↔ n ∈ v := by
        rw [Std.ExtTreeMap.mem_insert, Std.LawfulEqOrd.compare_eq_iff_eq]
        exact or_iff_right hne
      by_cases hn : n ∈ v
      · rw [completions_of_mem hn, completions_of_mem (hmem.mpr hn), ih hrest]
      · rw [completions_of_notMem hn, completions_of_notMem (mt hmem.mp hn), List.map_append,
          ih hrest, ih hrest, insert_comm hne, insert_comm hne]

theorem table_eq_completions (h : names.Nodup) : table names = completions names ∅ := by
  induction names with
  | nil => rfl
  | cons name names ih =>
      obtain ⟨hname, hnames⟩ := List.nodup_cons.mp h
      rw [table, ih hnames, map_insert_completions hname, map_insert_completions hname,
        completions_of_notMem Std.ExtTreeMap.not_mem_empty]

theorem mem_table_iff (h : names.Nodup) : w ∈ table names ↔ ∀ a, a ∈ w ↔ a ∈ names := by
  have hempty : w.Extends ∅ := fun a b hb => by simp at hb
  have hmem : ∀ a, a ∈ (∅ : Valuation String) ∨ a ∈ names ↔ a ∈ names :=
    fun a => or_iff_right Std.ExtTreeMap.not_mem_empty
  simp only [table_eq_completions h, mem_completions, hmem, hempty, true_and]

theorem restrict_mem_table (σ : Assignment String) (h : names.Nodup) :
    σ.restrict names ∈ table names :=
  (mem_table_iff h).mpr fun _ => Assignment.mem_restrict

end Valuation

section

variable {α : Type} [Atom α] {xs ys : List α}

theorem nodup_of_ascending (h : xs.Pairwise (compare · · = .lt)) : xs.Nodup :=
  h.imp fun hlt heq => by simp [heq] at hlt

/-- An ascending list is known by its members. -/
theorem eq_of_ascending (hx : xs.Pairwise (compare · · = .lt))
    (hy : ys.Pairwise (compare · · = .lt)) (h : ∀ a, a ∈ xs ↔ a ∈ ys) : xs = ys := by
  have hasymm : ∀ a b : α, compare a b = .lt → compare b a = .lt → a = b := by
    intro a b hab hba
    rw [Std.OrientedCmp.gt_of_lt hab] at hba
    contradiction
  have hperm := (List.perm_ext_iff_of_nodup (nodup_of_ascending hx) (nodup_of_ascending hy)).mpr h
  exact hperm.eq_of_pairwise (fun a b _ _ => hasymm a b) hx hy

end

namespace FormulaSet

theorem mem_names {fs : FormulaSet} {name : String} : name ∈ fs.names ↔ .atom name ∈ fs := by
  unfold names
  rw [List.mem_filterMap]
  constructor
  · rintro ⟨f, hf, hname⟩
    split at hname
    · cases hname
      exact Std.ExtTreeSet.mem_toList.mp hf
    · contradiction
  · intro hmem
    exact ⟨.atom name, Std.ExtTreeSet.mem_toList.mpr hmem, rfl⟩

theorem ordered_names (fs : FormulaSet) : fs.names.Pairwise fun p q => compare p q = .lt := by
  unfold names
  refine List.pairwise_filterMap.mpr
    (Std.ExtTreeSet.ordered_toList.imp fun {f g} hlt p hp q hq => ?_)
  split at hp
  · split at hq
    · cases hp
      cases hq
      exact hlt
    · contradiction
  · contradiction

theorem nodup_names (fs : FormulaSet) : fs.names.Nodup := nodup_of_ascending (ordered_names fs)

end FormulaSet

end PropSat
