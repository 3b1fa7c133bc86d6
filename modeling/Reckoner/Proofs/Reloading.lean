import Reckoner.Proofs.TokenBytes
import Reckoner.Proofs.Unsettled
/-!
A saved value that is not the same when it is evaluated again. The product of `Unsettled` comes to 6
while it is evaluated for the first time, and so a token of it is read; when the same bytes are read
once more, it has no value and they are refused (`loads_unsettled`).
-/
namespace Reckoner.Codec

open Reals

/-! Expressions of numbers and operators. -/

/-- A number within the limits of its fields, or an operator. -/
def PlainToken : Token → Prop
  | .literal l => l.WellFormed ∧ FitsToken (.literal l)
  | .operator _ => True
  | .collapsed .. => False

def plainTokenBytes : Token → List UInt8
  | .literal l => literalBytes l
  | .operator k => operatorBytes k
  | .collapsed .. => []

/-- The bytes of an expression of numbers and operators. -/
def plainBytes (ts : List Token) : List UInt8 := intBytes ts.length ++ ts.flatMap plainTokenBytes

variable {a : Arithmetic} {depth : ℕ} {ts : List Token}

theorem writes_plainTokens {write : Expression → Writer (List UInt8)}
    (h : ∀ t ∈ ts, PlainToken t) (w : Written Identity) :
    Writes (writeTokens (writeToken write) ts) w (ts.flatMap plainTokenBytes) w := by
  induction ts with
  | nil => exact writes_pure w []
  | cons t ts ih =>
    have hhead : Writes (writeToken write t) w (plainTokenBytes t) w := by
      cases t with
      | literal l => exact writes_literal (h _ List.mem_cons_self).2 w
      | operator k => exact writes_operator k w
      | collapsed => exact (h _ List.mem_cons_self).elim
    exact hhead.bind ((ih fun s hs => h s (List.mem_cons_of_mem _ hs)).bind (writes_pure ..))

theorem writes_plain (h : ∀ t ∈ ts, PlainToken t) (hlength : ts.length < 0x80000000)
    (w : Written Identity) : Writes (writeExpression (depth + 1) ts) w (plainBytes ts) w :=
  (writes_field (intField_natCast hlength) w).bind ((writes_plainTokens h w).bind (writes_pure ..))

theorem decodes_plainTokens {room : ℕ} {inner : Decoder Expression} (h : ∀ t ∈ ts, PlainToken t)
    (read : List Token) (s : Knowledge) :
    Decodes (readTokens (readToken a room inner) ts.length read) (ts.flatMap plainTokenBytes) s
      (read.reverse ++ ts) s := by
  induction ts generalizing read with
  | nil =>
    rw [List.append_nil]
    exact decodes_pure s _
  | cons t ts ih =>
    have hhead : Decodes (readToken a room inner) (plainTokenBytes t) s t s := by
      have ht := h t List.mem_cons_self
      cases t with
      | literal l => exact decodes_literal ht.1 ht.2 s
      | operator k => exact decodes_operator k s
      | collapsed => exact ht.elim
    have htail := ih (fun s hs => h s (List.mem_cons_of_mem _ hs)) (t :: read)
    rw [List.reverse_cons, List.append_assoc] at htail
    exact hhead.bind htail

theorem decodes_plain (h : ∀ t ∈ ts, PlainToken t) (hlength : ts.length < 0x80000000)
    (s : Knowledge) : Decodes (readExpression a (depth + 1)) (plainBytes ts) s ts s := by
  refine (decodes_field (yields_readInt (intField_natCast hlength)) s).bind ?_
  have hnat : ¬ (ts.length : Int) < 0 := by omega
  simp only [if_neg hnat, Int.toNat_natCast]
  exact decodes_plainTokens h [] s

/-! A token of such an expression. -/

/-- The bytes of an expression of one token, which is collapsed from numbers and operators. -/
def collapsedPlainBytes (source : List Token) (degrees : Bool) (short : String) : List UInt8 :=
  intBytes 1 ++ collapsedBytes 1 (plainBytes source) degrees short

section

variable {source : Expression} {degrees : Bool} {short : String}
  (h : ∀ t ∈ source, PlainToken t) (hlength : source.length < 0x80000000)

include h hlength

theorem writes_collapsedPlain (hshort : short.utf8ByteSize ≤ 0xffff) (depth name : ℕ) (value : Dual)
    (span : ℤ) :
    Writes (writeExpression (depth + 2) [.collapsed name value source ⟨degrees, span⟩ short])
      Written.empty (collapsedPlainBytes source degrees short)
      (Written.empty.register (valueIdentity name value)) := by
  have hcount : (Written.empty : Written Identity).count + 1 < 0x80000000 := by decide
  have hone : intField ((1 : ℕ) : ℤ) = .ok (intBytes 1) := intField_natCast (by decide)
  have htoken : Writes
      (writeToken (writeExpression (depth + 1)) (.collapsed name value source ⟨degrees, span⟩ short))
      Written.empty _ _ :=
    writes_collapsed rfl hcount (writes_plain h hlength _) hshort
  have htokens : Writes (writeTokens (writeToken (writeExpression (depth + 1)))
      [.collapsed name value source ⟨degrees, span⟩ short]) Written.empty
      (collapsedBytes 1 (plainBytes source) degrees short ++ []) _ :=
    htoken.bind ((writes_pure _ []).bind (writes_pure ..))
  rw [List.append_nil] at htokens
  exact (writes_field hone _).bind (htokens.bind (writes_pure ..))

theorem dumps_collapsedPlain (hshort : short.utf8ByteSize ≤ 0xffff) (name : ℕ) (value : Dual)
    (span : ℤ) :
    dumps [.collapsed name value source ⟨degrees, span⟩ short] =
      .ok (collapsedPlainBytes source degrees short) :=
  (writes_collapsedPlain h hlength hshort 488 name value span).encode

/-- The bytes are read as a token of what the expression comes to. -/
theorem decodes_collapsedPlain (hshort : short.utf8ByteSize ≤ 0xffff) {x : Dual} {m m' : Memory}
    (hvalue : Grammar.evaluateWithin (a.mode degrees) (evaluationRoom readingLimit) source.length
      source m = (.ok x, m')) (names : ℕ) :
    let t : Token := .collapsed names (x.keptAs names) source ⟨degrees, source.length⟩ short
    Decodes (readExpression a (readingLimit + 1)) (collapsedPlainBytes source degrees short)
      ⟨Known.empty, names, m⟩ [t] ⟨Known.empty.register (1 : ℕ) t, names + 1, m'⟩ := by
  have hone : intField ((1 : ℕ) : ℤ) = .ok (intBytes 1) := intField_natCast (by decide)
  have hsource : Decodes (readExpression a readingLimit) (plainBytes source)
      ⟨Known.empty, names, m⟩ source ⟨Known.empty, names, m⟩ := decodes_plain h hlength _
  have htoken := decodes_collapsed (by decide : 1 < 0x80000000) rfl hsource hvalue hshort
  refine (decodes_field (yields_readInt hone) _).bind ?_
  exact htoken.done (decodes_pure _ _)

/-- They are refused where it has no value. -/
theorem loads_collapsedPlain_of_error {e : Failure} {m : Memory}
    (hvalue : (Grammar.evaluateWithin (a.mode degrees) (evaluationRoom readingLimit) source.length
      source m).1 = .error e) (short : String) (names : ℕ) (trailing : List UInt8) :
    (loads a names m (collapsedPlainBytes source degrees short ++ trailing)).1 =
      .error (savedFailure e) := by
  have hone : intField ((1 : ℕ) : ℤ) = .ok (intBytes 1) := intField_natCast (by decide)
  have hsource : Decodes (readExpression a readingLimit) (plainBytes source)
      ⟨Known.empty, names, m⟩ source ⟨Known.empty, names, m⟩ := decodes_plain h hlength _
  have htoken := fails_collapsed (by decide : 1 < 0x80000000) rfl hsource hvalue short
  have hread : Fails (readExpression a (readingLimit + 1)) (collapsedPlainBytes source degrees short)
      ⟨Known.empty, names, m⟩ (savedFailure e) := by
    refine (decodes_field (yields_readInt hone) _).fails ?_
    exact htoken.bind _
  exact hread.decode trailing

end

/-! The product. -/

/-- The product, collapsed while it is 6. -/
def unsettled (name : ℕ) : Token :=
  .collapsed name ((Dual.ofRat 6).keptAs name) Grammar.Unsettled.tokens
    ⟨false, Grammar.Unsettled.tokens.length⟩ "6"

def unsettledBytes : List UInt8 := collapsedPlainBytes Grammar.Unsettled.tokens false "6"

theorem plain_unsettled : ∀ t ∈ Grammar.Unsettled.tokens, PlainToken t := by
  have hoffset : PlainToken (.literal Grammar.Unsettled.offset) :=
    ⟨⟨List.all_eq_true.1 (by decide), List.all_eq_true.1 (by decide), by decide⟩, by decide⟩
  have hfactor : PlainToken (.literal Grammar.Unsettled.factor) :=
    ⟨⟨List.all_eq_true.1 (by decide), List.all_eq_true.1 (by decide), by decide⟩, by decide⟩
  simp only [Grammar.Unsettled.tokens, Grammar.Unsettled.near, Grammar.Unsettled.vanishing,
    List.cons_append, List.nil_append, List.forall_mem_cons, hoffset, hfactor]
  simp [PlainToken]

/-- Its bytes are accepted while nothing is kept, and are refused after that, as they are after the
product was evaluated. -/
theorem loads_unsettled :
    let a : Arithmetic := ⟨10000, Elementary.kernel⟩
    ∃ m, Grammar.evaluate (a.mode false) Grammar.Unsettled.tokens.length Grammar.Unsettled.tokens
        Memory.empty = (.ok (.ofRat 6), m) ∧
      (∀ names trailing, loads a names Memory.empty (unsettledBytes ++ trailing) =
        (.ok [unsettled names], names + 1, m)) ∧
      ∀ names trailing, (loads a names m (unsettledBytes ++ trailing)).1 =
        .error (.format (.unevaluable "Factorial of non-integer")) := by
  intro a
  obtain ⟨m, hfirst, hagain⟩ := Grammar.Unsettled.value_twice false
  have hroom : ∀ m, (Grammar.Unsettled.product true).room (a.mode false) m ≤
      evaluationRoom readingLimit := fun _ => Nat.le_of_ble_eq_true rfl
  have hroom' : ∀ m, (Grammar.Unsettled.product true).room (a.mode false) m ≤
      Grammar.nestingLimit := fun _ => Nat.le_of_ble_eq_true rfl
  have hvalue := fun m => Grammar.Unsettled.tokens_isExpression.evaluateWithin_eq (hroom m)
  refine ⟨m, ?_, fun names trailing => ?_, fun names trailing => ?_⟩
  · rw [Grammar.Unsettled.tokens_isExpression.evaluate_eq (hroom' _)]
    exact hfirst
  · exact (decodes_collapsedPlain plain_unsettled (by decide) (by decide)
      ((hvalue Memory.empty).trans hfirst) names).decode trailing
  · exact loads_collapsedPlain_of_error plain_unsettled (by decide)
      ((congrArg Prod.fst (hvalue m)).trans hagain) "6" names trailing

end Reckoner.Codec
