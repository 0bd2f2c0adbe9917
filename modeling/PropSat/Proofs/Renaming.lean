import PropSat.Proofs.Assignment
import Mathlib.Data.Set.Function

/-!
# Renamed atoms

Clauses and valuations carried over to other atoms, possibly of another type and in another order. A
renaming that is one to one on the atoms at hand keeps what depends on their equality alone: which
literals occur in a clause, how often, and what a valuation says.
-/

namespace PropSat

variable {α β : Type}

theorem eraseDups_map_of_injOn [DecidableEq α] [DecidableEq β] {f : α → β} {xs : List α}
    (h : Set.InjOn f {x | x ∈ xs}) : (xs.map f).eraseDups = xs.eraseDups.map f := by
  induction hn : xs.length using Nat.strongRecOn generalizing xs with
  | ind n ih =>
      cases xs with
      | nil => rfl
      | cons x xs =>
          have hkeep : (xs.map f).filter (fun b => !b == f x) =
              (xs.filter fun b => !b == x).map f := by
            rw [List.filter_map]
            refine congrArg (List.map f) (List.filter_congr fun y hy => ?_)
            have hiff : f y = f x ↔ y = x :=
              h.eq_iff (List.mem_cons_of_mem x hy) List.mem_cons_self
            simp [hiff]
          rw [List.map_cons, List.eraseDups_cons, List.eraseDups_cons, List.map_cons, hkeep]
          refine congrArg (f x :: ·) (ih _ ?_ (h.mono fun y hy => ?_) rfl)
          · have hle := List.length_filter_le (fun b => !b == x) xs
            rw [List.length_cons] at hn
            omega
          · exact List.mem_cons_of_mem x (List.mem_filter.mp hy).1

theorem count_map_of_injOn [DecidableEq α] [DecidableEq β] {f : α → β} {xs : List α} {x : α}
    (h : Set.InjOn f {y | y ∈ xs}) (hx : x ∈ xs) : (xs.map f).count (f x) = xs.count x := by
  rw [List.count, List.count, List.countP_map]
  refine List.countP_congr fun y hy => ?_
  simpa using h.eq_iff hy hx

theorem maxOn?_map {f : α → β} {g : β → Nat} {k : α → Nat} {xs : List α}
    (h : ∀ x ∈ xs, g (f x) = k x) : (xs.map f).maxOn? g = (xs.maxOn? k).map f := by
  induction xs with
  | nil => rfl
  | cons x xs ih =>
      obtain ⟨hx, hxs⟩ := List.forall_mem_cons.mp h
      rw [List.map_cons, List.maxOn?_cons, List.maxOn?_cons, ih hxs, Option.map_some]
      cases hm : xs.maxOn? k with
      | none => rfl
      | some m =>
          have hle : g (f m) ≤ g (f x) ↔ k m ≤ k x := by rw [hx, hxs m (List.maxOn?_mem hm)]
          simp only [Option.map_some, Option.elim_some, maxOn_eq_if, hle]
          rw [apply_ite f]

def Literal.rename (r : α → β) (l : Literal α) : Literal β := ⟨r l.atom, l.sign⟩

def ClauseSet.rename (r : α → β) (cs : ClauseSet α) : ClauseSet β := cs.map (·.map (.rename r))

namespace Literal

@[simp] theorem rename_atom (r : α → β) (l : Literal α) : (l.rename r).atom = r l.atom := rfl

@[simp] theorem rename_sign (r : α → β) (l : Literal α) : (l.rename r).sign = l.sign := rfl

theorem rename_negate (r : α → β) (l : Literal α) : l.negate.rename r = (l.rename r).negate := rfl

theorem injOn_rename {r : α → β} {s : Set α} (hr : s.InjOn r) :
    Set.InjOn (rename r) {l | l.atom ∈ s} := by
  intro l hl k hk h
  obtain ⟨a, x⟩ := l
  obtain ⟨b, y⟩ := k
  have hatom : a = b := hr hl hk (congrArg atom h)
  have hsign : x = y := congrArg sign h
  rw [hatom, hsign]

end Literal

variable [Atom α] [Atom β]

namespace ClauseSet

/-- All atoms are from a set. -/
def Over (s : Set α) (cs : ClauseSet α) : Prop := ∀ c ∈ cs, ∀ l ∈ c, l.atom ∈ s

theorem over_atoms (cs : ClauseSet α) : cs.Over {a | a ∈ cs.atoms} :=
  fun c hc l hl => mem_atoms.mpr ⟨c, hc, l, hl, rfl⟩

end ClauseSet

namespace Valuation

def rename (r : α → β) (v : Valuation α) : Valuation β :=
  .ofPairs (v.toList.map fun p => (r p.1, p.2))

theorem getElem?_rename_eq_some_iff {r : α → β} {v : Valuation α}
    (hr : Set.InjOn r {a | a ∈ v}) {b : β} {x : Bool} :
    (v.rename r)[b]? = some x ↔ ∃ a, r a = b ∧ v[a]? = some x := by
  have hback : ∀ a y, v[a]? = some y → (v.rename r)[r a]? = some y := by
    intro a y hy
    refine Std.ExtTreeMap.getElem?_ofList_of_mem Std.ReflCmp.compare_self ?_
      (List.mem_map.mpr ⟨(a, y), Std.ExtTreeMap.mem_toList_iff_getElem?_eq_some.mpr hy, rfl⟩)
    refine List.pairwise_map.mpr (Std.ExtTreeMap.distinct_keys_toList.imp_of_mem ?_)
    intro p q hp hq hne heq
    have hp' := mem_of_getElem?_eq_some (Std.ExtTreeMap.mem_toList_iff_getElem?_eq_some.mp hp)
    have hq' := mem_of_getElem?_eq_some (Std.ExtTreeMap.mem_toList_iff_getElem?_eq_some.mp hq)
    have hpq : p.1 = q.1 := hr hp' hq' (Std.LawfulEqOrd.eq_of_compare heq)
    rw [hpq] at hne
    exact hne Std.ReflCmp.compare_self
  constructor
  · intro h
    have hkey : (v.toList.map fun p => (r p.1, p.2)).map Prod.fst |>.contains b := by
      apply Classical.byContradiction
      intro hno
      rw [rename, ofPairs, Std.ExtTreeMap.getElem?_ofList_of_contains_eq_false (by simpa using hno)]
        at h
      contradiction
    simp only [List.map_map, List.contains_iff_mem, List.mem_map, Function.comp_apply,
      Prod.exists] at hkey
    obtain ⟨a, y, hay, rfl⟩ := hkey
    have hy := Std.ExtTreeMap.mem_toList_iff_getElem?_eq_some.mp hay
    rw [hback a y hy] at h
    exact ⟨a, rfl, hy.trans h⟩
  · rintro ⟨a, rfl, hx⟩
    exact hback a x hx

theorem getElem?_rename {r : α → β} {s : Set α} (hr : s.InjOn r) {v : Valuation α}
    (hv : ∀ a ∈ v, a ∈ s) {a : α} (ha : a ∈ s) : (v.rename r)[r a]? = v[a]? := by
  refine Option.ext fun x => ?_
  rw [getElem?_rename_eq_some_iff (hr.mono hv)]
  constructor
  · rintro ⟨a', heq, hx⟩
    rwa [← hr (hv a' (mem_of_getElem?_eq_some hx)) ha heq]
  · intro hx
    exact ⟨a, rfl, hx⟩

theorem rename_assign {r : α → β} {s : Set α} (hr : s.InjOn r) {v : Valuation α}
    (hv : ∀ a ∈ v, a ∈ s) {l : Literal α} (hl : l.atom ∈ s) :
    (v.assign l).rename r = (v.rename r).assign (l.rename r) := by
  have hassign : ∀ a ∈ v.assign l, a ∈ s := by
    intro a ha
    rcases Std.ExtTreeMap.mem_insert.mp ha with heq | ha
    · exact Std.LawfulEqOrd.eq_of_compare heq ▸ hl
    · exact hv a ha
  refine Std.ExtTreeMap.ext_getElem? fun {b} => Option.ext fun x => ?_
  rw [getElem?_rename_eq_some_iff (hr.mono hassign), getElem?_assign, Literal.rename_atom,
    Literal.rename_sign]
  by_cases hb : r l.atom = b
  · rw [if_pos hb]
    constructor
    · rintro ⟨a, ha, hx⟩
      have hal : a = l.atom := hr (hassign a (mem_of_getElem?_eq_some hx)) hl (ha.trans hb.symm)
      rwa [hal, getElem?_assign_self] at hx
    · intro hx
      exact ⟨l.atom, hb, (getElem?_assign_self v l).trans hx⟩
  · rw [if_neg hb, getElem?_rename_eq_some_iff (hr.mono hv)]
    refine exists_congr fun a => and_congr_right fun ha => ?_
    have hne : l.atom ≠ a := fun heq => hb (heq ▸ ha)
    rw [getElem?_assign, if_neg hne]

end Valuation

end PropSat
