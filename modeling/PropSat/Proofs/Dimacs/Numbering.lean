import PropSat.Proofs.Dimacs.AtomTable
import PropSat.Proofs.Except
import Mathlib.Data.List.Induction

/-!
# Numbers for good

A table only ever grows at its end, so a name keeps its number in all later tables, and what one
table numbers every later one names again. In the other direction, clauses that a table can name are
numbered by it as before, and the table has nothing to add.
-/

namespace PropSat.AtomTable

/-! ## Names and numbers of one table -/

theorem exists_name?_iff {t : AtomTable} {n : Nat} :
    (∃ name, t.name? n = some name) ↔ 1 ≤ n ∧ n ≤ t.size := by
  cases n with
  | zero => simp [name?]
  | succ i =>
      simp only [name?_succ, List.getElem?_eq_some_iff]
      constructor
      · rintro ⟨-, hlt, -⟩
        exact ⟨Nat.succ_pos i, hlt⟩
      · rintro ⟨-, hle⟩
        exact ⟨_, hle, rfl⟩

theorem number?_of_mem {t : AtomTable} {name : String} (h : name ∈ t.names) :
    t.number? name = some (t.number name) := by
  rw [number?_eq_some_iff, number, name?_succ, List.getElem?_idxOf h]

theorem mem_of_name? {t : AtomTable} {n : Nat} {name : String} (h : t.name? n = some name) :
    name ∈ t.names := by
  cases n with
  | zero => contradiction
  | succ i =>
      rw [name?_succ] at h
      exact List.mem_of_getElem? h

theorem number_of_name? {t : AtomTable} {n : Nat} {name : String} (h : t.name? n = some name) :
    t.number name = n := by
  have hnumber := number?_of_mem (mem_of_name? h)
  rw [number?_eq_some_iff.mpr h, Option.some.injEq] at hnumber
  exact hnumber.symm

theorem toNamed?_eq_some_iff {t : AtomTable} {k : Literal Nat} {l : Literal String} :
    t.toNamed? k = some l ↔ t.name? k.atom = some l.atom ∧ k.sign = l.sign := by
  unfold toNamed?
  rw [Option.map_eq_some_iff]
  constructor
  · rintro ⟨name, hname, rfl⟩
    exact ⟨hname, rfl⟩
  · rintro ⟨hname, hsign⟩
    exact ⟨l.atom, hname, by rw [hsign]⟩

/-! ## Growth -/

theorem insert_of_mem {t : AtomTable} {name : String} (h : name ∈ t.names) : t.insert name = t :=
  dif_pos h

theorem names_insert_of_notMem {t : AtomTable} {name : String} (h : name ∉ t.names) :
    (t.insert name).names = t.names ++ [name] := by
  unfold insert
  rw [dif_neg h]

theorem prefix_insert (t : AtomTable) (name : String) : t.names <+: (t.insert name).names := by
  by_cases h : name ∈ t.names
  · simp only [insert_of_mem h, List.prefix_rfl]
  · rw [names_insert_of_notMem h]
    exact List.prefix_append t.names [name]

theorem mem_insert (t : AtomTable) (name : String) : name ∈ (t.insert name).names := by
  by_cases h : name ∈ t.names
  · rwa [insert_of_mem h]
  · rw [names_insert_of_notMem h]
    exact List.mem_append_right t.names List.mem_cons_self

theorem prefix_insertAll (t : AtomTable) (names : List String) :
    t.names <+: (t.insertAll names).names := by
  induction names generalizing t with
  | nil => exact List.prefix_rfl
  | cons name names ih => exact (t.prefix_insert name).trans (ih (t.insert name))

theorem mem_insertAll {t : AtomTable} {names : List String} {name : String} (h : name ∈ names) :
    name ∈ (t.insertAll names).names := by
  induction names generalizing t with
  | nil => contradiction
  | cons first names ih =>
      rcases List.mem_cons.mp h with rfl | h
      · exact (prefix_insertAll (t.insert name) names).subset (t.mem_insert name)
      · exact ih h

theorem insertAll_of_forall_mem {t : AtomTable} {names : List String}
    (h : ∀ name ∈ names, name ∈ t.names) : t.insertAll names = t := by
  induction names with
  | nil => rfl
  | cons name names ih =>
      obtain ⟨hname, hnames⟩ := List.forall_mem_cons.mp h
      have hinsert : t.insertAll (name :: names) = (t.insert name).insertAll names := rfl
      rw [hinsert, insert_of_mem hname, ih hnames]

/-- The number handed out for a new name is the one that it then has. -/
theorem number_insert (t : AtomTable) (name : String) :
    (t.insert name).number name = t.number name := by
  by_cases h : name ∈ t.names
  · rw [insert_of_mem h]
  · rw [number, number, names_insert_of_notMem h, List.idxOf_append, if_neg h,
      List.idxOf_eq_length h]
    simp

inductive Step (t : AtomTable) : AtomTable → Prop where
  | literal (l : Literal String) : Step t (t.encodeLiteral l).2
  | clauses (cs : ClauseSet String) : Step t (t.encode cs).2

inductive Reaches (t : AtomTable) : AtomTable → Prop where
  | refl : Reaches t t
  | tail {u w : AtomTable} (hu : Reaches t u) (hs : u.Step w) : Reaches t w

theorem Step.prefix_names {t u : AtomTable} (h : t.Step u) : t.names <+: u.names := by
  cases h with
  | literal l => exact t.prefix_insert l.atom
  | clauses cs => exact t.prefix_insertAll (cs.flatten.map Literal.atom)

theorem Reaches.prefix_names {t u : AtomTable} (h : t.Reaches u) : t.names <+: u.names := by
  induction h with
  | refl => exact List.prefix_rfl
  | tail _ hs ih => exact ih.trans hs.prefix_names

/-- So every table is one that use brings about. -/
theorem reaches_of_empty (t : AtomTable) : empty.Reaches t := by
  obtain ⟨names, hnodup⟩ := t
  induction names using List.reverseRec with
  | nil => exact .refl
  | append_singleton names name ih =>
      have hinit : names.Nodup := (List.nodup_append.mp hnodup).1
      have hnew : name ∉ names := fun hmem =>
        (List.nodup_append.mp hnodup).2.2 name hmem name List.mem_cons_self rfl
      have hinsert : (AtomTable.mk names hinit).insert name = ⟨names ++ [name], hnodup⟩ :=
        dif_neg hnew
      exact hinsert ▸ .tail (ih hinit) (.literal ⟨name, true⟩)

theorem name?_mono {t u : AtomTable} (h : t.names <+: u.names) {n : Nat} {name : String}
    (hn : t.name? n = some name) : u.name? n = some name := by
  obtain ⟨rest, hrest⟩ := h
  cases n with
  | zero => contradiction
  | succ i =>
      rw [name?_succ] at hn ⊢
      obtain ⟨hlt, -⟩ := List.getElem?_eq_some_iff.mp hn
      rw [← hrest, List.getElem?_append_left hlt, hn]

theorem Reaches.number? {t u : AtomTable} (h : t.Reaches u) {name : String} {n : Nat}
    (hn : t.number? name = some n) : u.number? name = some n :=
  number?_eq_some_iff.mpr (name?_mono h.prefix_names (number?_eq_some_iff.mp hn))

/-! ## Literals and clause sets -/

theorem toNamed?_encodeLiteral {t u : AtomTable} {l : Literal String}
    (h : (t.encodeLiteral l).2.Reaches u) : u.toNamed? (t.encodeLiteral l).1 = some l := by
  have hmem : l.atom ∈ (t.encodeLiteral l).2.names := t.mem_insert l.atom
  have hname := number?_eq_some_iff.mp (number?_of_mem hmem)
  have hnumber : (t.encodeLiteral l).2.number l.atom = (t.encodeLiteral l).1.atom :=
    t.number_insert l.atom
  rw [hnumber] at hname
  exact toNamed?_eq_some_iff.mpr ⟨name?_mono h.prefix_names hname, rfl⟩

theorem decode?_eq_some_iff {t : AtomTable} {ds : ClauseSet Nat} {cs : ClauseSet String} :
    t.decode? ds = some cs ↔
      List.Forall₂ (List.Forall₂ fun k l => t.toNamed? k = some l) ds cs := by
  rw [decode?, mapM_eq_some_iff_forall₂]
  simp only [mapM_eq_some_iff_forall₂]

theorem decode?_encode {t u : AtomTable} {cs : ClauseSet String} (h : (t.encode cs).2.Reaches u) :
    u.decode? (t.encode cs).1 = some cs := by
  have hclauses : (t.encode cs).1 = cs.map (·.map (t.encode cs).2.toNumbered) := rfl
  rw [decode?_eq_some_iff, hclauses, List.forall₂_map_left_iff, List.forall₂_same]
  intro c hc
  rw [List.forall₂_map_left_iff, List.forall₂_same]
  intro l hl
  have hmem : l.atom ∈ (t.encode cs).2.names :=
    mem_insertAll (List.mem_map_of_mem (List.mem_flatten_of_mem hc hl))
  have hname := number?_eq_some_iff.mp (number?_of_mem hmem)
  exact toNamed?_eq_some_iff.mpr ⟨name?_mono h.prefix_names hname, rfl⟩

theorem encode_of_decode? {t : AtomTable} {ds : ClauseSet Nat} {cs : ClauseSet String}
    (h : t.decode? ds = some cs) : t.encode cs = (ds, t) := by
  have hnames := decode?_eq_some_iff.mp h
  have hknown : ∀ l ∈ cs.flatten, l.atom ∈ t.names := by
    have hflat : List.Forall₂ (fun l k => t.toNamed? k = some l) cs.flatten ds.flatten :=
      (List.rel_flatten hnames).flip
    exact ((List.forall₂_and_left _ _).mp (hflat.imp fun l k hk =>
      ⟨mem_of_name? (toNamed?_eq_some_iff.mp hk).1, hk⟩)).1
  have htable : t.insertAll (cs.flatten.map Literal.atom) = t :=
    insertAll_of_forall_mem (List.forall_mem_map.mpr hknown)
  have hclauses : cs.map (·.map t.toNumbered) = ds := by
    rw [eq_comm, ← List.forall₂_eq_eq_eq, List.forall₂_map_right_iff]
    refine hnames.imp fun d c hdc => ?_
    rw [← List.forall₂_eq_eq_eq, List.forall₂_map_right_iff]
    refine hdc.imp fun k l hkl => ?_
    obtain ⟨hname, hsign⟩ := toNamed?_eq_some_iff.mp hkl
    rw [toNumbered, number_of_name? hname, ← hsign]
  simp only [encode, htable, hclauses]

/-! ## Valuations -/

theorem getElem?_decodeValuation (t : AtomTable) (v : Valuation Nat) (name : String) :
    (t.decodeValuation v)[name]? = (t.number? name).bind fun n => v[n]? :=
  Valuation.getElem?_ofPairs_filterMap (fun _ _ => number?_eq_some_iff.symm) v name

theorem decodeValuation_encodeValuation (t : AtomTable) (v : Valuation String) :
    t.decodeValuation (t.encodeValuation v) = v.filter fun name _ => (t.number? name).isSome := by
  refine Std.ExtTreeMap.ext_getElem? fun {name} => ?_
  rw [getElem?_decodeValuation, Std.ExtTreeMap.getElem?_filter']
  cases hn : t.number? name with
  | none => simp
  | some n =>
      rw [Option.bind_some, getElem?_encodeValuation, number?_eq_some_iff.mp hn, Option.bind_some]
      cases v[name]? <;> rfl

theorem encodeValuation_decodeValuation (t : AtomTable) (v : Valuation Nat) :
    t.encodeValuation (t.decodeValuation v) = v.filter fun n _ => 1 ≤ n ∧ n ≤ t.size := by
  refine Std.ExtTreeMap.ext_getElem? fun {n} => ?_
  rw [getElem?_encodeValuation, Std.ExtTreeMap.getElem?_filter']
  cases hn : t.name? n with
  | none =>
      have hout : ¬ (1 ≤ n ∧ n ≤ t.size) := fun hin => by
        obtain ⟨name, hname⟩ := exists_name?_iff.mpr hin
        rw [hn] at hname
        contradiction
      cases v[n]? <;> simp [hout]
  | some name =>
      have hin : 1 ≤ n ∧ n ≤ t.size := exists_name?_iff.mp ⟨name, hn⟩
      rw [Option.bind_some, getElem?_decodeValuation, number?_eq_some_iff.mpr hn, Option.bind_some]
      cases v[n]? <;> simp [hin, Option.filter]

/-- In every table, which is to say after any uses of the empty one, names and numbers answer to
each other and the numbers are those up to its size. A number is kept through all later uses, so
what was encoded is decoded as it was; what the table can decode is encoded as it was and brings
nothing new; and a valuation taken there and back keeps what the table knows. -/
theorem numbers_stable_and_invertible (t : AtomTable) :
    empty.Reaches t ∧
    (∀ name n, t.number? name = some n ↔ t.name? n = some name) ∧
    (∀ n, (∃ name, t.number? name = some n) ↔ 1 ≤ n ∧ n ≤ t.size) ∧
    (∀ u, t.Reaches u → ∀ name n, t.number? name = some n → u.number? name = some n) ∧
    (∀ l u, (t.encodeLiteral l).2.Reaches u → u.toNamed? (t.encodeLiteral l).1 = some l) ∧
    (∀ cs u, (t.encode cs).2.Reaches u → u.decode? (t.encode cs).1 = some cs) ∧
    (∀ ds cs, t.decode? ds = some cs → t.encode cs = (ds, t)) ∧
    (∀ v, t.decodeValuation (t.encodeValuation v) =
      v.filter fun name _ => (t.number? name).isSome) ∧
    ∀ v, t.encodeValuation (t.decodeValuation v) = v.filter fun n _ => 1 ≤ n ∧ n ≤ t.size := by
  refine ⟨reaches_of_empty t, fun _ _ => number?_eq_some_iff, fun n => ?_,
    fun _ h _ _ => h.number?, fun _ _ => toNamed?_encodeLiteral, fun _ _ => decode?_encode,
    fun _ _ => encode_of_decode?, decodeValuation_encodeValuation t,
    encodeValuation_decodeValuation t⟩
  simp only [number?_eq_some_iff]
  exact exists_name?_iff

theorem numbers_stable_and_invertible_on_growth :
    let start := empty.encode [[⟨"q", false⟩, ⟨"p", true⟩, ⟨"q", true⟩], []]
    start.1 = [[⟨1, false⟩, ⟨2, true⟩, ⟨1, true⟩], []] ∧
      (start.2.encodeLiteral ⟨"r", true⟩).2.decode? start.1 =
        some [[⟨"q", false⟩, ⟨"p", true⟩, ⟨"q", true⟩], []] ∧
      start.2.encode [[⟨"p", false⟩]] = ([[⟨2, false⟩]], start.2) := by
  refine ⟨by decide, ?_, ?_⟩
  · exact (numbers_stable_and_invertible empty).2.2.2.2.2.1 _ _ (.tail .refl (.literal _))
  · exact (numbers_stable_and_invertible _).2.2.2.2.2.2.1 [[⟨2, false⟩]] _ (by decide)

end PropSat.AtomTable
