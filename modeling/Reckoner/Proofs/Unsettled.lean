import Mathlib.Control.Monad.Basic
import Reckoner.Elementary
import Reckoner.Proofs.BoundedRun
import Reckoner.Proofs.Parsing
/-!
Factorials that depend on what is kept. With c = 0.1415… the number π − c is about as far from 3 as the
integer test tolerates: with π as closely as the test itself asks for it, it passes for 3, and with π to
more digits it does not. The difference of two multiples of π by 10 ^ 12 is 0 and asks for those
digits. So the product of their factorials is 6 when it is evaluated first, and when it is
evaluated again it has no value (`value_twice`).
-/
namespace Reckoner.Grammar.Unsettled

open Reals

def offset : Literal := ⟨"0", true, "141592653589793238462643383280305164"⟩

def factor : Literal := ⟨"1000000000000", false, ""⟩

/-- (π − c)! -/
def near : List Token :=
  [.operator .opening, .operator (.constant .pi), .operator (.binary .minus), .literal offset,
    .operator .closing, .operator (.suffix .factorial)]

/-- (π × 10 ^ 12 − π × 10 ^ 12)! -/
def vanishing : List Token :=
  [.operator .opening, .operator (.constant .pi), .operator (.binary .times), .literal factor,
    .operator (.binary .minus), .operator (.constant .pi), .operator (.binary .times),
    .literal factor, .operator .closing, .operator (.suffix .factorial)]

def nearTree : Tree :=
  .suffix .factorial (.group true (.difference (.constant .pi) (.number offset)))

def multipleTree : Tree := .product true (.constant .pi) (.number factor)

def vanishingTree : Tree := .suffix .factorial (.group true (.difference multipleTree multipleTree))

variable {rest : List Token}

theorem near_derives : Derives (.rule .signedFactor) (near ++ rest) nearTree rest := by
  have hoffset : Derives (.rule .term)
      (.literal offset :: .operator .closing :: .operator (.suffix .factorial) :: rest)
      (.number offset) (.operator .closing :: .operator (.suffix .factorial) :: rest) :=
    .term (.signedFactor (.factor (.suffix .number .suffixesDone))) .productsDone
  have hpi : Derives (.rule .term) (near ++ rest).tail (.constant .pi) ((near ++ rest).drop 2) :=
    .term (.signedFactor (.factor (.suffix .constant .suffixesDone))) .productsDone
  have hgroup : Derives (.rule .unary) (near ++ rest)
      (.group true (.difference (.constant .pi) (.number offset)))
      (.operator (.suffix .factorial) :: rest) :=
    .group (.expr hpi (.minus hoffset .sumsDone)) .closing
  exact .signedFactor (.factor (.suffix hgroup (.suffixesMore .suffixesDone)))

theorem multiple_derives : Derives (.rule .term)
    (.operator (.constant .pi) :: .operator (.binary .times) :: .literal factor :: rest)
    multipleTree rest := by
  have hpi : Derives (.rule .signedFactor)
      (.operator (.constant .pi) :: .operator (.binary .times) :: .literal factor :: rest)
      (.constant .pi) (.operator (.binary .times) :: .literal factor :: rest) :=
    .signedFactor (.factor (.suffix .constant .suffixesDone))
  exact .term hpi (.times (.signedFactor (.factor (.suffix .number .suffixesDone))) .productsDone)

theorem vanishing_derives : Derives (.rule .factor) (vanishing ++ rest) vanishingTree rest := by
  have hgroup : Derives (.rule .unary) (vanishing ++ rest)
      (.group true (.difference multipleTree multipleTree)) (.operator (.suffix .factorial) :: rest) :=
    .group (.expr multiple_derives (.minus multiple_derives .sumsDone)) .closing
  exact .factor (.suffix hgroup (.suffixesMore .suffixesDone))

/-- The product of both, with its sign or without. -/
def product (signed : Bool) : Tree := .product signed nearTree vanishingTree

/-- (π − c)! × (π × 10 ^ 12 − π × 10 ^ 12)! -/
def tokens : List Token := near ++ .operator (.binary .times) :: vanishing

theorem tokens_derives (rest : List Token) :
    Derives (.rule .expr) (tokens ++ rest) (product true) rest := by
  have hterm : Derives (.rule .term) (near ++ .operator (.binary .times) :: (vanishing ++ rest))
      (product true) rest :=
    .term near_derives (.times (.signedFactor vanishing_derives) .productsDone)
  exact .expr hterm .sumsDone

theorem tokens_isExpression : IsExpression tokens (product true) := tokens_derives []

theorem juxtaposed_isExpression : IsExpression (near ++ vanishing) (product false) := by
  have hterm : Derives (.rule .term) (near ++ (vanishing ++ [])) (product false) [] :=
    .term near_derives (.beside vanishing_derives .productsDone)
  exact .expr hterm .sumsDone

/-- How the values are taken here. -/
def mode (degrees : Bool) : Mode := ⟨degrees, 10000, Elementary.kernel⟩

variable {degrees : Bool}

/-- π − c. -/
def distance : Term :=
  .sub .pi (.rational (35398163397448309615660845820076291 / 250000000000000000000000000000000000))

def multiple : Term := .mul .pi (.rational 1000000000000)

theorem nearTree_value : nearTree.value (mode degrees) =
    (Dual.factorial Elementary.kernel ⟨distance, none⟩).mapError .arithmetic := by
  have hoffset : literalValue offset =
      .ok (.ofRat (35398163397448309615660845820076291 / 250000000000000000000000000000000000)) := by
    decide +kernel
  simp only [nearTree, Tree.value, hoffset, Except.mapError, Recall.ofExcept_ok, pure_bind]
  rfl

theorem vanishingTree_value : vanishingTree.value (mode degrees) =
    (Dual.factorial Elementary.kernel ⟨.sub multiple multiple, none⟩).mapError .arithmetic := by
  have hfactor : literalValue factor = .ok (.ofRat 1000000000000) := by decide +kernel
  simp only [vanishingTree, multipleTree, Tree.value, hfactor, Except.mapError, Recall.ofExcept_ok,
    pure_bind]
  rfl

/-- The product is 6, and when its value is asked for again, the first factor has none. -/
theorem value_twice (degrees : Bool) :
    ∃ m, (product true).value (mode degrees) Memory.empty = (.ok (.ofRat 6), m) ∧
      ((product true).value (mode degrees) m).1 = .error (.arithmetic .factorialOfNonInteger) := by
  have hasked : (distance.integerWithin Elementary.kernel 100 Dual.integerTest Memory.empty).bind
      (fun x => ((Term.sub multiple multiple).integerWithin Elementary.kernel 100 Dual.integerTest
        x.2).bind fun y => (distance.integerWithin Elementary.kernel 100 Dual.integerTest y.2).map
          fun z => (x.1, y.1, z.1)) = some (some 3, some 0, none) := by
    decide +kernel
  simp only [Option.bind_eq_some_iff, Option.map_eq_some_iff, Prod.exists, Prod.mk.injEq] at hasked
  obtain ⟨_, m₁, hnear, _, m₂, hvanishing, _, m₃, hagain, rfl, rfl, rfl⟩ := hasked
  have hsix : Dual.factorialAs ⟨distance, none⟩ (some 3) = .ok (.ofRat 6) := by decide +kernel
  have hone : Dual.factorialAs ⟨.sub multiple multiple, none⟩ (some 0) = .ok (.ofRat 1) := by
    decide +kernel
  have hproduct : (Dual.ofRat 6).mul 10000 (.ofRat 1) = .ofRat 6 := by decide +kernel
  have hfirst : nearTree.value (mode degrees) Memory.empty = (.ok (.ofRat 6), m₁) := by
    have hfactorial := Dual.factorial_of_within (x := ⟨distance, none⟩) 100 rfl hnear
    rw [nearTree_value, Recall.mapError_apply, hfactorial, hsix]
    rfl
  have hsecond : vanishingTree.value (mode degrees) m₁ = (.ok (.ofRat 1), m₂) := by
    have hfactorial :=
      Dual.factorial_of_within (x := ⟨.sub multiple multiple, none⟩) 100 rfl hvanishing
    rw [vanishingTree_value, Recall.mapError_apply, hfactorial, hone]
    rfl
  have hthird : nearTree.value (mode degrees) m₂ =
      (.error (.arithmetic .factorialOfNonInteger), m₃) := by
    have hfactorial := Dual.factorial_of_within (x := ⟨distance, none⟩) 100 rfl hagain
    rw [nearTree_value, Recall.mapError_apply, hfactorial]
    rfl
  refine ⟨m₂, ?_, congrArg Prod.fst (Recall.bind_of_error hthird)⟩
  rw [← hproduct]
  exact (Recall.bind_of_ok hfirst).trans (Recall.bind_of_ok hsecond)

/-- So two expressions come to 6 and to an error, one after the other, if both have this value. -/
theorem evaluate_twice {e e' : List Token} {t t' : Tree} (he : IsExpression e t)
    (he' : IsExpression e' t') (ht : t.value (mode degrees) = (product true).value (mode degrees))
    (ht' : t'.value (mode degrees) = (product true).value (mode degrees))
    (hroom : ∀ m, t.room (mode degrees) m ≤ nestingLimit)
    (hroom' : ∀ m, t'.room (mode degrees) m ≤ nestingLimit) :
    ∃ m, evaluate (mode degrees) e.length e Memory.empty = (.ok (.ofRat 6), m) ∧
      (evaluate (mode degrees) e'.length e' m).1 = .error (.arithmetic .factorialOfNonInteger) := by
  obtain ⟨m, hfirst, hagain⟩ := value_twice degrees
  refine ⟨m, ?_, ?_⟩
  · rw [he.evaluate_eq (hroom _), ht, hfirst]
  · rw [he'.evaluate_eq (hroom' _), ht', hagain]

end Reckoner.Grammar.Unsettled
