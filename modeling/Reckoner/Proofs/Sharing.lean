import Reckoner.Codec.Sharing
/-!
The laws of numbering: an index once given is kept, and no two values have one index.
-/
namespace Reckoner.Codec

namespace Written

variable {ι : Type} [DecidableEq ι] {w : Written ι} {i j : ι} {k : Nat}

theorem index?_register (w : Written ι) (i j : ι) :
    (w.register i).index? j = if i = j then some (w.count + 1) else w.index? j := by
  simp only [index?, register, count, List.findIdx?_cons, List.length_cons]
  by_cases h : i = j
  · simp [h]
  · simp [h, Option.map_map, Function.comp_def, Nat.add_sub_add_right]

theorem index?_register_self (w : Written ι) (i : ι) :
    (w.register i).index? i = some (w.count + 1) := by
  rw [index?_register, if_pos rfl]

theorem index?_register_of_ne (h : i ≠ j) : (w.register i).index? j = w.index? j := by
  rw [index?_register, if_neg h]

theorem index?_eq_none_iff : w.index? i = none ↔ i ∉ w.values := by
  simp only [index?, Option.map_eq_none_iff, List.findIdx?_eq_none_iff, decide_eq_false_iff_not]
  exact ⟨fun h hi => h i hi rfl, fun h j hj hji => h (hji ▸ hj)⟩

theorem index?_le (h : w.index? i = some k) : k ≤ w.count := by
  obtain ⟨values⟩ := w
  induction values with
  | nil => simp [index?] at h
  | cons j values ih =>
    change (register ⟨values⟩ j).index? i = some k at h
    rw [index?_register] at h
    split at h
    · exact Nat.le_of_eq (Option.some.inj h).symm
    · exact Nat.le_succ_of_le (ih h)

theorem index?_injective (hi : w.index? i = some k) (hj : w.index? j = some k) : i = j := by
  obtain ⟨values⟩ := w
  induction values with
  | nil => simp [index?] at hi
  | cons v values ih =>
    change (register ⟨values⟩ v).index? i = some k at hi
    change (register ⟨values⟩ v).index? j = some k at hj
    rw [index?_register] at hi hj
    -- the newest index is above all others
    split at hi <;> split at hj
    · rename_i hvi hvj
      exact hvi.symm.trans hvj
    · have := index?_le hj
      have := Option.some.inj hi
      omega
    · have := index?_le hi
      have := Option.some.inj hj
      omega
    · exact ih hi hj

end Written

namespace Known

variable {α : Type} (k : Known α) (i j : Int) (x : α)

theorem find?_register :
    (k.register i x).find? j = if j = i then some x else k.find? j := by
  simp only [find?, register, List.lookup_cons]
  by_cases h : j = i
  · simp [h]
  · simp [h, beq_false_of_ne h]

end Known

end Reckoner.Codec
