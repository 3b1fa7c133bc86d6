import Reckoner.Proofs.Within
import Mathlib.Data.List.Basic
/-!
The order in which values become known. A value is known to the reader when the expression inside it
has been read; `numbering` gives values new names in that order, as the reader does.
-/
namespace Reckoner

open Reals

mutual

/-- The values that are known after a token is read, in the order in which reading them ends. -/
def Token.finish (done : List Identity) : Token → List Identity
  | .collapsed name value source _ _ =>
    if Codec.valueIdentity name value ∈ done then done
    else Expression.finish done source ++ [Codec.valueIdentity name value]
  | _ => done

/-- The values that are known after an expression is read, in the order in which reading them ends. -/
def Expression.finish (done : List Identity) : Expression → List Identity
  | [] => done
  | t :: ts => Expression.finish (t.finish done) ts

end

mutual

theorem Token.prefix_finish : ∀ (t : Token) (done : List Identity), done <+: t.finish done
  | .literal _, _ | .operator _, _ => List.prefix_refl _
  | .collapsed name value source _ _, done => by
    unfold Token.finish
    split
    · exact List.prefix_refl _
    · exact (Expression.prefix_finish source done).trans (List.prefix_append _ _)

theorem Expression.prefix_finish : ∀ (e : Expression) (done : List Identity),
    done <+: e.finish done
  | [], _ => List.prefix_refl _
  | t :: e, done => (Token.prefix_finish t done).trans (Expression.prefix_finish e _)

end

mutual

theorem Token.mem_finish : ∀ {t : Token} {done : List Identity} {i : Identity},
    i ∈ t.finish done → i ∈ done ∨ t.identity? = some i ∨ ∃ s ∈ t.within, s.identity? = some i
  | .literal _, _, _, h | .operator _, _, _, h => .inl h
  | .collapsed name value source _ _, done, i, h => by
    unfold Token.finish at h
    split at h
    · exact .inl h
    · rcases List.mem_append.1 h with h | h
      · rcases Expression.mem_finish h with h | h
        · exact .inl h
        · exact .inr (.inr h)
      · exact .inr (.inl (congrArg some (List.mem_singleton.1 h).symm))

theorem Expression.mem_finish : ∀ {e : Expression} {done : List Identity}
    {i : Identity}, i ∈ e.finish done → i ∈ done ∨ ∃ s ∈ e.within, s.identity? = some i
  | [], _, _, h => .inl h
  | t :: e, done, i, h => by
    simp only [Expression.within, List.mem_cons, List.mem_append]
    have h : i ∈ Expression.finish (t.finish done) e := h
    rcases Expression.mem_finish h with h | ⟨s, hs, hi⟩
    · rcases Token.mem_finish h with h | h | ⟨s, hs, hi⟩
      · exact .inl h
      · exact .inr ⟨t, .inl rfl, h⟩
      · exact .inr ⟨s, .inr (.inl hs), hi⟩
    · exact .inr ⟨s, .inr (.inr hs), hi⟩

end

namespace Codec

/-- A number for every identity. -/
def code : Identity → Nat
  | .pi => 0
  | .e => 1
  | .radiansPerDegree => 2
  | .degreesPerRadian => 3
  | .lnTen => 4
  | .hundredth => 5
  | .name n => n + 6

theorem code_injective : code.Injective := by
  intro i j h
  cases i <;> cases j <;> simp_all [code]

/-- New names for values, from `first` on, in the order in which reading them ends. -/
def numbering (first : Nat) (order : List Identity) (i : Identity) : Nat :=
  first + if i ∈ order then order.idxOf i else order.length + code i

theorem numbering_injective (first : Nat) (order : List Identity) :
    (numbering first order).Injective := by
  intro i j h
  have h := Nat.add_left_cancel h
  by_cases hi : i ∈ order <;> by_cases hj : j ∈ order <;>
    simp only [hi, hj, ↓reduceIte] at h
  · exact (List.idxOf_inj hi).1 h
  · have := List.idxOf_lt_length_of_mem hi
    omega
  · have := List.idxOf_lt_length_of_mem hj
    omega
  · exact code_injective (Nat.add_left_cancel h)

theorem numbering_of_initial {first : Nat} {done order : List Identity} {i : Identity}
    (h : done ++ [i] <+: order) (hi : i ∉ done) : numbering first order i = first + done.length := by
  obtain ⟨rest, rfl⟩ := h
  simp [numbering, List.idxOf_append_of_notMem, hi]

end Codec

end Reckoner
