import PropSat.Formula

/-!
# The order of formulas

Formulas are ordered by their outermost constructor, atoms first and implications last, and then by
their operands from left to right; atoms by name.
-/

namespace PropSat.Formula

def order : Formula → Formula → Ordering
  | atom p, atom q => Ord.compare p q
  | atom _, _ => .lt
  | _, atom _ => .gt
  | not f, not g => order f g
  | not _, _ => .lt
  | _, not _ => .gt
  | and f g, and h k => (order f h).then (order g k)
  | and _ _, _ => .lt
  | _, and _ _ => .gt
  | or f g, or h k => (order f h).then (order g k)
  | or _ _, _ => .lt
  | _, or _ _ => .gt
  | implies f g, implies h k => (order f h).then (order g k)

instance : Ord Formula := ⟨order⟩

theorem eq_of_order {f g : Formula} (h : order f g = .eq) : f = g := by
  induction f generalizing g with
  | atom p => cases g <;> simp_all [order]
  | not f ih => cases g <;> simp [order] at h ⊢; exact ih h
  | and f k ihf ihk | or f k ihf ihk | implies f k ihf ihk =>
      cases g <;> simp [order] at h ⊢
      exact ⟨ihf h.1, ihk h.2⟩

theorem order_swap (f g : Formula) : order f g = (order g f).swap := by
  induction f generalizing g with
  | atom p =>
      cases g with
      | atom q => exact Std.OrientedOrd.eq_swap
      | _ => rfl
  | not f ih => cases g <;> simp_all [order]
  | and f h ihf ihh | or f h ihf ihh | implies f h ihf ihh =>
      cases g <;> simp [order, Ordering.swap_then]
      rw [ihf, ihh]

theorem order_trans {f g h : Formula} (hfg : order f g = .lt) (hgh : order g h = .lt) :
    order f h = .lt := by
  induction g generalizing f h with
  | atom q =>
      cases f <;> cases h <;> simp_all [order]
      exact Std.TransCmp.lt_trans hfg hgh
  | not g ih => cases f <;> cases h <;> simp_all [order]
  | and g k ihg ihk | or g k ihg ihk | implies g k ihg ihk =>
      cases f <;> cases h <;> simp_all [order, Ordering.then_eq_lt]
      grind [eq_of_order]

instance : Std.TransOrd Formula where
  eq_swap {f g} := order_swap f g
  isLE_trans {f g h} hfg hgh := by
    change (order f g).isLE at hfg
    change (order g h).isLE at hgh
    change (order f h).isLE
    cases hc : order f g with
    | gt => simp [hc] at hfg
    | eq => rwa [eq_of_order hc]
    | lt =>
        cases hd : order g h with
        | gt => simp [hd] at hgh
        | eq => simp [← eq_of_order hd, hc]
        | lt => simp [order_trans hc hd]

instance : Std.LawfulEqOrd Formula where
  eq_of_compare := eq_of_order

end PropSat.Formula
