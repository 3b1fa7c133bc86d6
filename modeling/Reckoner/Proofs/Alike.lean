import Reckoner.Proofs.Renaming
import Reckoner.Proofs.Size
/-!
Expressions that are equal token by token, at every depth, whatever their values are called and however
their formulas are made. They have as many bytes, and one is a thread if the other is.
-/
namespace Reckoner

open Reals

mutual

/-- Whether two tokens are the same number or operator, or collapsed tokens with the same expression,
unit of angles, short text and exact value. -/
def Token.Alike : Token → Token → Prop
  | .literal l, .literal l' => l = l'
  | .operator k, .operator k' => k = k'
  | .collapsed _ value source context short, .collapsed _ value' source' context' short' =>
    Expression.Alike source source' ∧ context.degrees = context'.degrees ∧ short = short' ∧
      value.exact = value'.exact
  | _, _ => False

/-- Whether two expressions are equal token by token. -/
def Expression.Alike : Expression → Expression → Prop
  | [], [] => True
  | t :: ts, u :: us => t.Alike u ∧ Expression.Alike ts us
  | _, _ => False

end

mutual

theorem Token.alike_rename (σ : Identity → Nat) : ∀ t : Token, (t.rename σ).Alike t
  | .literal _ | .operator _ => rfl
  | .collapsed _ _ source _ _ => ⟨Expression.alike_rename σ source, rfl, rfl, rfl⟩

theorem Expression.alike_rename (σ : Identity → Nat) : ∀ e : Expression, (e.rename σ).Alike e
  | [] => trivial
  | t :: ts => ⟨Token.alike_rename σ t, Expression.alike_rename σ ts⟩

end

mutual

theorem Token.Alike.size_eq : ∀ {t u : Token}, t.Alike u → t.size = u.size
  | .literal l, .literal _, h => by
    obtain rfl : l = _ := h
    rfl
  | .operator _, .operator _, _ => rfl
  | .collapsed _ _ source _ _, .collapsed _ _ source' _ _, h => by
    obtain ⟨hsource, -, rfl, -⟩ := h
    simp only [Token.size, Expression.Alike.size_eq hsource]

theorem Expression.Alike.size_eq : ∀ {e e' : Expression}, e.Alike e' → e.size = e'.size
  | [], [], _ => rfl
  | t :: ts, u :: us, h => by
    simp only [Expression.size, Token.Alike.size_eq h.1, Expression.Alike.size_eq h.2]

end

theorem Token.Alike.identity?_eq_none {t u : Token} (h : t.Alike u) (hu : u.identity? = none) :
    t.identity? = none := by
  cases t with
  | collapsed =>
    cases u with
    | collapsed => cases hu
    | _ => cases h
  | _ => rfl

theorem Expression.Alike.exists_mem {e e' : Expression} (h : e.Alike e') :
    ∀ t ∈ e, ∃ u ∈ e', t.Alike u := by
  induction e generalizing e' with
  | nil =>
    intro t ht
    cases ht
  | cons s ts ih =>
    cases e' with
    | nil => cases h
    | cons r us =>
      intro t ht
      rcases List.mem_cons.1 ht with rfl | ht
      · exact ⟨r, List.mem_cons_self, h.1⟩
      · obtain ⟨u, hu, htu⟩ := ih h.2 t ht
        exact ⟨u, List.mem_cons_of_mem _ hu, htu⟩

mutual

theorem Token.Alike.threaded : ∀ {t u : Token}, t.Alike u → u.Threaded → t.Threaded
  | .literal _, _, _, _ | .operator _, _, _, _ => trivial
  | .collapsed .., .collapsed .., h, hu => Expression.Alike.threaded h.1 hu

theorem Expression.Alike.threaded : ∀ {e e' : Expression}, e.Alike e' → e'.Threaded → e.Threaded
  | [], _, _, _ => trivial
  | t :: ts, u :: us, h, hu => by
    refine ⟨Token.Alike.threaded h.1 hu.1, fun s hs => ?_⟩
    obtain ⟨r, hr, hsr⟩ := h.2.exists_mem s hs
    exact hsr.identity?_eq_none (hu.2 r hr)

end

end Reckoner
