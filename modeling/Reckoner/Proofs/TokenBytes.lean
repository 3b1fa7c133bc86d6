import Reckoner.Proofs.Passes
import Reckoner.Proofs.Savable
import Reckoner.Proofs.Sharing
import Mathlib.Data.List.Perm.Subperm
/-!
The bytes of tokens. A number and an operator have their own; a collapsed token has bytes of its own
where its value is new, and else those of a reference. What is written within the limits of the
fields is read as it was.
-/
namespace Reckoner

open Reals

theorem Key.number_le (k : Key) : k.number ≤ 71 := by
  cases k with
  | digit d => exact Nat.le_trans (Nat.le_of_lt d.isLt) (by decide)
  | binary op => cases op <;> decide
  | suffix op => cases op <;> decide
  | function f => cases f <;> decide
  | constant c => cases c <;> decide
  | _ => decide

namespace Codec

/-- What the writer has numbered, each value once, while it writes `e`. -/
structure Counted (e : Expression) (w : Written Identity) : Prop where
  nodup : w.values.Nodup
  occurs : ∀ i ∈ w.values, i ∈ e.identities

namespace Counted

variable {e : Expression} {w : Written Identity} {i : Identity} {limit : Nat}

theorem empty (e : Expression) : Counted e Written.empty where
  nodup := List.nodup_nil
  occurs i hi := by cases hi

theorem count_lt (h : Counted e w) (hlimit : e.identities.dedup.length < limit) :
    w.count < limit := by
  have hsub : w.values ⊆ e.identities.dedup := fun i hi => List.mem_dedup.2 (h.occurs i hi)
  exact Nat.lt_of_le_of_lt (h.nodup.subperm hsub).length_le hlimit

theorem register (h : Counted e w) (hi : i ∈ e.identities) (hw : w.index? i = none) :
    Counted e (w.register i) where
  nodup := h.nodup.cons (Written.index?_eq_none_iff.1 hw)
  occurs := List.forall_mem_cons.2 ⟨hi, h.occurs⟩

end Counted

theorem isDigits_of_forall {s : String} (h : ∀ c ∈ s.toList, c.isDigit) : isDigits s = true :=
  List.all_eq_true.2 fun c hc => Text.isDigit_of_isDigit (h c hc)

/-- The bytes of a number. -/
def literalBytes (l : Literal) : List UInt8 :=
  bytesOf 1 literalTag ++ (textBytes l.whole ++ boolField l.point ++ textBytes l.fraction)

/-- The bytes of an operator. -/
def operatorBytes (k : Key) : List UInt8 := bytesOf 1 operatorTag ++ intBytes k.number

/-- The bytes of a collapsed token whose value has been written under an index. -/
def referenceBytes (index : Nat) : List UInt8 := bytesOf 1 collapsedTag ++ intBytes index

/-- The bytes of a collapsed token, given its new index and the bytes of its expression. -/
def collapsedBytes (index : Nat) (source : List UInt8) (degrees : Bool) (short : String) :
    List UInt8 :=
  bytesOf 1 collapsedTag ++ (intBytes index ++ source ++ boolField degrees ++ textBytes short)

section

variable {write : Expression → Writer (List UInt8)} {w w' : Written Identity} {name : Nat}
  {value : Dual} {source : Expression} {context : Context} {short : String} {data : List UInt8}

theorem writes_literal {l : Literal} (hfits : FitsToken (.literal l)) (w : Written Identity) :
    Writes (writeToken write (.literal l)) w (literalBytes l) w := by
  have hw := textField_eq_ok hfits.1
  have hf := textField_eq_ok hfits.2
  simp only [literalBytes, ← List.append_assoc]
  exact (writes_field hw w).bind ((writes_field hf w).bind (writes_pure ..))

theorem writes_operator (k : Key) (w : Written Identity) :
    Writes (writeToken write (.operator k)) w (operatorBytes k) w := by
  have hk := k.number_le
  exact (writes_field (intField_natCast (by omega)) w).bind (writes_pure ..)

theorem writes_reference {j : Nat} (hw : w.index? (valueIdentity name value) = some j)
    (hj : j < 0x80000000) :
    Writes (writeToken write (.collapsed name value source context short)) w (referenceBytes j) w := by
  apply writes_get
  simp only [hw]
  exact (writes_field (intField_natCast hj) w).bind (writes_pure ..)

theorem writes_collapsed (hw : w.index? (valueIdentity name value) = none)
    (hcount : w.count + 1 < 0x80000000)
    (hsource : Writes (write source) (w.register (valueIdentity name value)) data w')
    (hshort : short.utf8ByteSize ≤ 0xffff) :
    Writes (writeToken write (.collapsed name value source context short)) w
      (collapsedBytes (w.count + 1) data context.degrees short) w' := by
  simp only [collapsedBytes, ← List.append_assoc]
  apply writes_get
  simp only [hw]
  apply writes_register
  apply writes_get
  exact (writes_field (intField_natCast hcount) _).bind (hsource.bind
    ((writes_field (textField_eq_ok hshort) _).bind (writes_pure ..)))

end

section

variable {a : Arithmetic} {room : ℕ} {read : Decoder Expression} {data : List UInt8}

theorem decodes_literal {l : Literal} (hwell : l.WellFormed) (hfits : FitsToken (.literal l))
    (s : Knowledge) :
    Decodes (readToken a room read) (literalBytes l) s (.literal l) s := by
  simp only [literalBytes, List.append_assoc]
  refine (decodes_field (yields_readByte (by decide)) s).bind
    ((decodes_field (yields_readText hfits.1) s).bind
      ((decodes_field (yields_readBool l.point) s).bind
        ((decodes_field (yields_readText hfits.2) s).done ?_)))
  simp only [isDigits_of_forall hwell.whole, isDigits_of_forall hwell.fraction, Bool.and_self]
  exact decodes_pure s _

theorem decodes_operator (k : Key) (s : Knowledge) :
    Decodes (readToken a room read) (operatorBytes k) s (.operator k) s := by
  have hk := k.number_le
  have hy := yields_readInt (intField_natCast (n := k.number) (by omega))
  refine (decodes_field (yields_readByte (by decide)) s).bind ((decodes_field hy s).done ?_)
  simp only [Key.ofNumber?_number]
  exact decodes_pure s _

theorem decodes_reference {s : Knowledge} {j : ℕ} {t : Token} (hj : j < 0x80000000)
    (hknown : s.known.find? j = some t) :
    Decodes (readToken a room read) (referenceBytes j) s t s := by
  have hy := yields_readInt (intField_natCast hj)
  refine (decodes_field (yields_readByte (by decide)) _).bind
    ((decodes_field hy _).done (decodes_get fun stream => ?_))
  simp only [Knowledge.over, hknown]
  exact decodes_pure _ _

theorem savedValue_eq_ok {context : Context} {source : Expression} {m m' : Memory} {x : Dual}
    (h : Grammar.evaluateWithin (a.mode context.degrees) room context.span source m = (.ok x, m')) :
    savedValue a room context source m = (.ok x, m') :=
  Recall.mapError_eq_ok_iff.2 h

theorem decodes_collapsed {s s' : Knowledge} {index : ℕ} {source : Expression} {degrees : Bool}
    {x : Dual} {memory : Memory} {short : String} (hindex : index < 0x80000000)
    (hknown : s.known.find? index = none) (hsource : Decodes read data s source s')
    (hvalue : Grammar.evaluateWithin (a.mode degrees) room source.length source s'.memory =
      (.ok x, memory)) (hshort : short.utf8ByteSize ≤ 0xffff) :
    Decodes (readToken a room read) (collapsedBytes index data degrees short) s
      (.collapsed s'.names (x.keptAs s'.names) source ⟨degrees, source.length⟩ short)
      ⟨s'.known.register index
        (.collapsed s'.names (x.keptAs s'.names) source ⟨degrees, source.length⟩ short),
        s'.names + 1, memory⟩ := by
  have hy := yields_readInt (intField_natCast hindex)
  simp only [collapsedBytes, List.append_assoc]
  refine (decodes_field (yields_readByte (by decide)) _).bind
    ((decodes_field hy _).bind (decodes_get fun stream => ?_))
  simp only [Knowledge.over, hknown]
  refine hsource.bind ((decodes_field (yields_readBool degrees) _).bind ?_)
  have hsaved : savedValue a room ⟨degrees, source.length⟩ source s'.memory = (.ok x, memory) :=
    savedValue_eq_ok hvalue
  refine (decodes_recalling hsaved).start ((decodes_field (yields_readText hshort) _).done ?_)
  exact fun _ _ => rfl

theorem fails_collapsed {s s' : Knowledge} {index : ℕ} {source : Expression} {degrees : Bool}
    {e : Failure} (hindex : index < 0x80000000)
    (hknown : s.known.find? index = none) (hsource : Decodes read data s source s')
    (hvalue : (Grammar.evaluateWithin (a.mode degrees) room source.length source s'.memory).1 =
      .error e) (short : String) :
    Fails (readToken a room read) (collapsedBytes index data degrees short) s (savedFailure e) := by
  have hy := yields_readInt (intField_natCast hindex)
  have hsaved : (savedValue a room ⟨degrees, source.length⟩ source s'.memory).1 =
      .error (savedFailure e) := mapError_eq_error_iff.2 ⟨e, hvalue, rfl⟩
  simp only [collapsedBytes, List.append_assoc]
  refine (decodes_field (yields_readByte (by decide)) _).fails
    ((decodes_field hy _).fails (fails_get fun stream => ?_))
  simp only [Knowledge.over, hknown]
  refine hsource.fails ((decodes_field (yields_readBool degrees) _).fails ?_)
  exact ((fails_recalling hsaved).bind _).append (textBytes short)

end

end Codec

end Reckoner
