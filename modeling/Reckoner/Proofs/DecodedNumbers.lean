import Reckoner.Proofs.Conversion
import Reckoner.Proofs.Decoding
/-!
The numbers in what is decoded. At every depth they are numbers of the data and have digits of some kind;
inside a collapsed token, whose expression has been evaluated, they can be converted
(`numbers_of_loads`). Whether a number has a point is not looked at, so that its fraction may count for
its exact value and not for its real.
-/
namespace Reckoner

open Reals

namespace Grammar

/-- The numbers at the leaves of a tree, from left to right. -/
def Tree.literals : Tree → List Literal
  | .number l => [l]
  | .collapsed _ | .constant _ => []
  | .root _ t | .group _ t | .call _ _ t | .suffix _ t | .opposite t => t.literals
  | .power s t | .product _ s t | .quotient s t | .sum s t | .difference s t =>
    s.literals ++ t.literals

/-- The numbers in what has been read of a part. -/
def Part.literals : Part → List Literal
  | .rule _ => []
  | .suffixes x | .products x | .sums x => x.literals

end Grammar

/-- The number that a token is. -/
def Token.literal? : Token → Option Literal
  | .literal l => some l
  | _ => none

theorem Token.literal?_eq_some_iff {t : Token} {l : Literal} :
    t.literal? = some l ↔ t = .literal l := by
  cases t <;> simp [Token.literal?]

/-- The numbers among the tokens, not those inside collapsed tokens. -/
def Expression.literals (e : Expression) : List Literal := e.filterMap Token.literal?

theorem Expression.mem_literals {e : Expression} {l : Literal} :
    l ∈ e.literals ↔ .literal l ∈ e := by
  simp [Expression.literals, Token.literal?_eq_some_iff]

namespace Grammar

variable {mode : Mode} {p : Part} {ts mid rest : List Token} {t : Tree} {l : Literal} {v : Dual}
  {m m' : Memory} {closed : Bool}

theorem Closes.literals_eq (h : Closes mid closed rest) :
    Expression.literals mid = Expression.literals rest := by
  cases h <;> rfl

/-- A tree has the numbers that have been read. -/
theorem Derives.literals_eq (h : Derives p ts t rest) :
    p.literals ++ Expression.literals ts = t.literals ++ Expression.literals rest := by
  induction h with
  | group h hc ih | call h hc ih =>
    rw [← hc.literals_eq]
    exact ih
  | number | collapsed | constant | suffixesDone | productsDone | sumsDone => rfl
  | root h ih | rootMinus h ih | suffixesMore h ih | opposite h ih | factor h ih
  | signedFactor h ih => exact ih
  | suffix h h' ih ih' | term h h' ih ih' | expr h h' ih ih' => exact ih.trans ih'
  | power h h' ih ih' =>
    rw [Tree.literals, List.append_assoc, ← ih']
    exact ih
  | @times _ _ _ x _ _ h h' ih ih' | @dividedBy _ _ _ x _ _ h h' ih ih'
  | @beside _ _ _ x _ _ h h' ih ih' | @plus _ _ _ x _ _ h h' ih ih'
  | @minus _ _ _ x _ _ h h' ih ih' =>
    have hmore := congrArg (x.literals ++ ·) ih
    exact hmore.trans ((List.append_assoc ..).symm.trans ih')

theorem IsExpression.literals_eq {e : Expression} (h : IsExpression e t) :
    e.literals = t.literals := by
  have hliterals := Derives.literals_eq h
  simpa [Part.literals, Expression.literals] using hliterals

/-- A value needs a value of every number. -/
theorem Tree.literalValue_isOk (h : t.value mode m = (.ok v, m')) (hl : l ∈ t.literals) :
    ∃ x, literalValue l = .ok x := by
  induction t generalizing m v m' with
  | number l' =>
    obtain rfl := List.mem_singleton.1 hl
    obtain ⟨hv, -⟩ := Recall.ofExcept_eq_ok_iff.1 h
    exact ⟨v, mapError_eq_ok_iff.1 hv⟩
  | collapsed | constant => cases hl
  | group closed t ih => exact ih h hl
  | root _ t ih | call _ _ t ih | suffix _ t ih | opposite t ih =>
    obtain ⟨x, m₁, hx, -⟩ := run_bind_eq_ok_iff.1 h
    exact ih hx hl
  | power s t ihs iht | product _ s t ihs iht | quotient s t ihs iht | sum s t ihs iht
  | difference s t ihs iht =>
    obtain ⟨x, m₁, hx, h⟩ := run_bind_eq_ok_iff.1 h
    obtain ⟨y, m₂, hy, -⟩ := run_bind_eq_ok_iff.1 h
    rcases List.mem_append.1 hl with hl | hl
    · exact ihs hx hl
    · exact iht hy hl

/-- So does the value of an expression. -/
theorem exists_exact_of_evaluateWithin {e : Expression} {depth : Nat}
    (h : evaluateWithin mode depth e.length e m = (.ok v, m')) (hl : .literal l ∈ e) :
    ∃ q, l.exact = .ok q := by
  obtain ⟨t, ht, hv, -⟩ := evaluateWithin_sound h
  rw [range_natCast, List.take_length] at ht
  rw [← Expression.mem_literals, ht.literals_eq] at hl
  obtain ⟨x, hx⟩ := Tree.literalValue_isOk hv hl
  obtain ⟨r, -, hx⟩ := bind_eq_ok_iff.1 hx
  obtain ⟨q, hq, -⟩ := bind_eq_ok_iff.1 hx
  exact ⟨q, hq⟩

end Grammar

namespace Codec

variable {α β : Type} {a : Arithmetic} {data : List UInt8} {found : α → Prop}
  {room : Nat} {inner : Decoder Expression}

/-- The numbers inside a token are held by the data, have nothing but digits, and can be converted. -/
def FoundInside (data : List UInt8) (t : Token) : Prop :=
  ∀ l, .literal l ∈ t.within →
    Holds data l ∧ isDigits l.whole ∧ isDigits l.fraction ∧ l.Convertible

/-- The known tokens are of the data, too, with what is inside them. -/
structure Progress.WithinInside (data : List UInt8) (p : Progress) : Prop extends p.Within data where
  inside : ∀ index t, p.known.find? index = some t → FoundInside data t

/-- A decoder that keeps to the data and finds such things if it succeeds. -/
def Keeps (data : List UInt8) (d : Decoder α) (found : α → Prop) : Prop :=
  ∀ p x p', p.WithinInside data → d p = (.ok x, p') → p'.WithinInside data ∧ found x

namespace Keeps

theorem bind {d : Decoder α} {f : α → Decoder β} {found' : β → Prop} (hd : Keeps data d found)
    (hf : ∀ x, found x → Keeps data (f x) found') : Keeps data (d >>= f) found' := by
  intro p y p' hp h
  obtain ⟨x, p₁, hx, h⟩ := run_bind_eq_ok_iff.1 h
  obtain ⟨hp₁, hfound⟩ := hd p x p₁ hp hx
  exact hf x hfound p₁ y p' hp₁ h

theorem pure {x : α} (hx : found x) : Keeps data (pure x) found := by
  intro p y p' hp h
  cases h
  exact ⟨hp, hx⟩

theorem throw (e : Failure) : Keeps data (throw e : Decoder α) found := by
  intro p x p' hp h
  cases h

/-- What a decoder finds that gets to know nothing. -/
theorem of_finds {d : Decoder α} (hd : Finds data d found)
    (hknown : ∀ p x p', d p = (.ok x, p') → p'.known = p.known) : Keeps data d found := by
  intro p x p' hp h
  obtain ⟨hp', hfound⟩ := hd.ok hp.toWithin h
  exact ⟨⟨hp', fun index t ht => hp.inside index t (hknown p x p' h ▸ ht)⟩, hfound⟩

theorem field {r : Reader α} (hr : Finds data (field r) fun _ => True) :
    Keeps data (field r) fun _ => True := by
  refine of_finds hr fun p x p' h => ?_
  obtain ⟨stream, -, rfl⟩ := field_eq_ok h
  rfl

end Keeps

/-- A number, if the token is one, and the numbers inside it. -/
def FoundDeep (data : List UInt8) (t : Token) : Prop := FoundToken data t ∧ FoundInside data t

theorem foundInside_of_identity? {t : Token} (ht : t.identity? = none) : FoundInside data t := by
  intro l hl
  cases t with
  | collapsed => cases ht
  | _ => cases hl

/-- A token that is not collapsed has nothing inside. -/
theorem keeps_plain {d : Decoder Token} (hd : Finds data d (FoundToken data))
    (hplain : ∀ p t p', d p = (.ok t, p') → p'.known = p.known ∧ t.identity? = none) :
    Keeps data d (FoundDeep data) := by
  intro p t p' hp h
  have hknown := fun p t p' h => (hplain p t p' h).1
  obtain ⟨hp', hfound⟩ := Keeps.of_finds hd hknown p t p' hp h
  exact ⟨hp', hfound, foundInside_of_identity? (hplain p t p' h).2⟩

theorem keeps_literal : Keeps data readLiteral (FoundDeep data) :=
  keeps_plain finds_literal fun _ _ _ h => ⟨(readLiteral_spends h).1, (readLiteral_spends h).2.1⟩

theorem keeps_operator : Keeps data readOperator (FoundDeep data) :=
  keeps_plain finds_operator fun _ _ _ h => ⟨(readOperator_spends h).1, (readOperator_spends h).2.1⟩

/-- The numbers of an expression that has been evaluated can be converted. -/
theorem foundInside_of_evaluate {v : Dual} {m m' : Memory} {source : Expression} {degrees : Bool}
    (name : Nat) (value : Dual) (short : String) (hsource : ∀ t ∈ source, FoundDeep data t)
    (hv : Grammar.evaluateWithin (a.mode degrees) room source.length source m = (.ok v, m')) :
    FoundInside data (.collapsed name value source ⟨degrees, source.length⟩ short) := by
  intro l hl
  obtain ⟨t, ht, heq | hinside⟩ := Expression.mem_within_iff.1 hl
  · obtain ⟨hholds, hwhole, hfraction⟩ := (hsource t ht).1 l heq.symm
    refine ⟨hholds, hwhole, hfraction, ?_⟩
    exact (Literal.exists_exact_iff hwhole hfraction).1
      (Grammar.exists_exact_of_evaluateWithin hv (heq ▸ ht))
  · exact (hsource t ht).2 l hinside

theorem keeps_get : Keeps data (get : Decoder Progress) (Progress.WithinInside data) := by
  intro p x p' hp h
  cases h
  exact ⟨hp, hp⟩

theorem keeps_value (a : Arithmetic) (room : Nat) (context : Context) (source : Expression) :
    Keeps data (recalling (savedValue a room context source)) fun v =>
      ∃ m m', Grammar.evaluateWithin (a.mode context.degrees) room context.span source m =
        (.ok v, m') := by
  intro p v p' hp h
  obtain ⟨m, hv, rfl⟩ := recalling_eq_ok h
  exact ⟨⟨⟨hp.ahead, hp.known⟩, hp.inside⟩, p.memory, m, Recall.mapError_eq_ok_iff.1 hv⟩

theorem keeps_newCollapsed {value : Dual} {source : Expression} {context : Context}
    {short : String} :
    Keeps data (newCollapsed value source context short) fun t =>
      ∃ name value, t = .collapsed name value source context short := by
  intro p t p' hp h
  cases h
  exact ⟨⟨⟨hp.ahead, hp.known⟩, hp.inside⟩, _, _, rfl⟩

theorem keeps_register {t : Token} (ht : t.identity? ≠ none) (hinside : FoundInside data t)
    (index : Int) :
    Keeps data (modify fun p => { p with known := p.known.register index t } : Decoder Unit)
      fun _ => True := by
  intro p x p' hp h
  obtain ⟨hp', -⟩ := (finds_register ht index).ok hp.toWithin h
  cases h
  refine ⟨⟨hp', fun index' t' hfind => ?_⟩, trivial⟩
  rw [Known.find?_register] at hfind
  split at hfind
  · exact Option.some.inj hfind ▸ hinside
  · exact hp.inside index' t' hfind

theorem keeps_collapsed (hinner : Keeps data inner fun e => ∀ t ∈ e, FoundDeep data t) :
    Keeps data (readCollapsed a room inner) (FoundDeep data) := by
  apply (Keeps.field Finds.int).bind
  intro index _
  apply keeps_get.bind
  intro p hp
  cases hfind : p.known.find? index with
  | some t =>
    apply Keeps.pure
    exact ⟨foundToken_of_identity? (hp.known index t hfind), hp.inside index t hfind⟩
  | none =>
    apply hinner.bind
    intro source hsource
    apply (Keeps.field Finds.bool).bind
    intro degrees _
    apply (keeps_value a room _ _).bind
    rintro value ⟨m, m', hvalue⟩
    apply (Keeps.field Finds.text).bind
    intro short _
    apply keeps_newCollapsed.bind
    rintro t ⟨name, value', rfl⟩
    have hinside := foundInside_of_evaluate name value' short hsource hvalue
    have hidentity : (Token.collapsed name value' source ⟨degrees, source.length⟩ short).identity? ≠
        none := by
      simp [Token.identity?]
    apply (keeps_register hidentity hinside index).bind
    intro _ _
    exact .pure ⟨foundToken_of_identity? hidentity, hinside⟩

theorem keeps_token (hinner : Keeps data inner fun e => ∀ t ∈ e, FoundDeep data t) :
    Keeps data (readToken a room inner) (FoundDeep data) := by
  apply (Keeps.field Finds.byte).bind
  intro tag _
  by_cases hliteral : tag = literalTag
  · rw [if_pos hliteral]
    exact keeps_literal
  · rw [if_neg hliteral]
    by_cases hoperator : tag = operatorTag
    · rw [if_pos hoperator]
      exact keeps_operator
    · rw [if_neg hoperator]
      by_cases hcollapsed : tag = collapsedTag
      · rw [if_pos hcollapsed]
        exact keeps_collapsed hinner
      · rw [if_neg hcollapsed]
        exact .throw _

theorem keeps_tokens {one : Decoder Token} (hone : Keeps data one (FoundDeep data)) (count : Nat)
    {read : List Token} (hread : ∀ t ∈ read, FoundDeep data t) :
    Keeps data (readTokens one count read) fun e => ∀ t ∈ e, FoundDeep data t := by
  induction count generalizing read with
  | zero =>
    apply Keeps.pure
    intro t ht
    exact hread t (List.mem_reverse.1 ht)
  | succ count ih =>
    apply hone.bind
    intro t ht
    apply ih
    exact List.forall_mem_cons.2 ⟨ht, hread⟩

theorem keeps_expression (a : Arithmetic) (data : List UInt8) (depth : Nat) :
    Keeps data (readExpression a depth) fun e => ∀ t ∈ e, FoundDeep data t := by
  induction depth with
  | zero => exact .throw _
  | succ depth ih =>
    apply (Keeps.field Finds.int).bind
    intro count _
    split
    · exact .throw _
    · apply keeps_tokens (keeps_token ih)
      intro t ht
      cases ht

/-- Whatever the data are that are read as an expression, its numbers, at every depth, are among the data
and have nothing but digits of some kind, and those inside a collapsed token can be converted. If a
number is not too long and its digits are decimal, its exact value is that of all its digits, and its
real and its display are those of the digits shown, which are all where there is a fraction only
after a point. The exact value and the real are the same just if the digits are decimal and none but
zeros are not shown. -/
theorem numbers_of_loads (a : Arithmetic) (names : Nat) (m : Memory) (data : List UInt8)
    {e : Expression} {l : Literal} (h : (loads a names m data).1 = .ok e) (hl : .literal l ∈ e.within) :
    (Holds data l ∧ isDigits l.whole ∧ isDigits l.fraction) ∧
    ((∃ t ∈ e, .literal l ∈ t.within) → l.Convertible) ∧
    (l.Numeric → l.shown = l) ∧
    (l.integral.length + l.fraction.length ≤ Text.digitLimit →
      ((∀ c ∈ l.whole.toList ++ l.fraction.toList, Text.isDecimal c) →
        l.exact = .ok l.number ∧ l.real = .ok (.rational l.shown.number) ∧
          ∀ files separator, Settings.localize files "." = .ok separator →
            ∃ s, l.display files = .ok s ∧ Literal.Shows separator s l.shown.number) ∧
      ((∃ q, l.exact = .ok q ∧ l.real = .ok (.rational q)) ↔
        (∀ c ∈ l.whole.toList ++ l.fraction.toList, Text.isDecimal c) ∧
          (l.point = true ∨ Text.digitsValue 0 l.fraction.toList = 0))) := by
  have hdecode : loads a names m data = (.ok e, (loads a names m data).2) := Prod.ext h rfl
  obtain ⟨p, hrun⟩ := decode_eq_ok hdecode
  have hstart : Progress.WithinInside data ⟨Stream.ofBytes data, Known.empty, names, m⟩ :=
    ⟨⟨List.suffix_refl data, fun index t ht => (by cases ht)⟩, fun index t ht => (by cases ht)⟩
  obtain ⟨-, hdeep⟩ := keeps_expression a data _ _ _ _ hstart hrun
  have hfound : Holds data l ∧ isDigits l.whole ∧ isDigits l.fraction := by
    obtain ⟨t, ht, heq | hinside⟩ := Expression.mem_within_iff.1 hl
    · exact (hdeep t ht).1 l heq.symm
    · obtain ⟨hholds, hwhole, hfraction, -⟩ := (hdeep t ht).2 l hinside
      exact ⟨hholds, hwhole, hfraction⟩
  refine ⟨hfound, ?_, fun hnumeric => hnumeric.shown_eq, fun hshort => ⟨fun hdecimal => ?_, ?_⟩⟩
  · rintro ⟨t, ht, hinside⟩
    exact ((hdeep t ht).2 l hinside).2.2.2
  · obtain ⟨hwhole, hfraction⟩ := List.forall_mem_append.1 hdecimal
    have hconvertible : l.Convertible := ⟨hwhole, hfraction, hshort⟩
    exact ⟨hconvertible.exact_eq, hconvertible.real_eq, fun _ _ => hconvertible.display_shows⟩
  · exact Literal.agrees_iff hfound.2.1 hfound.2.2 hshort

/-- A 2 and a fraction 5 without a point, inside a collapsed token, are two and a half for the exact
value and 2 for the real. -/
theorem numbers_of_loads_inside :
    let l : Literal := ⟨"2", false, "5"⟩
    let half : Token :=
      .collapsed 0 ⟨.named (.name 0) (.rational 2), some (5 / 2)⟩ [.literal l] ⟨false, 1⟩ "2"
    let data : List UInt8 :=
      [0, 0, 0, 1, 2, 0, 0, 0, 1, 0, 0, 0, 1, 0, 0, 1, 50, 0, 0, 1, 53, 0, 0, 1, 50]
    (loads Calculator.shippedArithmetic 0 Memory.empty data).1 = .ok [half] ∧
      .literal l ∈ Expression.within [half] ∧ Holds data l ∧ l.Convertible ∧
      ¬ ∃ q, l.exact = .ok q ∧ l.real = .ok (.rational q) := by
  intro l half data
  have hloads : (loads Calculator.shippedArithmetic 0 Memory.empty data).1 = .ok [half] := by
    simp only [half, l, data]
    cbv
  have hl : .literal l ∈ Expression.within [half] := by simp [Expression.within, Token.within, half]
  obtain ⟨⟨hholds, -⟩, hconvertible, -, hagrees⟩ :=
    numbers_of_loads Calculator.shippedArithmetic 0 Memory.empty data hloads hl
  refine ⟨hloads, hl, hholds, hconvertible ⟨half, List.mem_cons_self, ?_⟩, ?_⟩
  · simp [Token.within, Expression.within, half]
  · rw [(hagrees (by decide)).2]
    rintro ⟨-, hpoint | hzero⟩
    · cases hpoint
    · exact absurd hzero (by decide)

/-- A 1 and a fraction 5 without a point are accepted, which are one and a half for the exact value and 1
for the real and as typed; and so is a superscript two, which has no place value. -/
theorem numbers_of_loads_malformed :
    let pointless : Literal := ⟨"1", false, "5"⟩
    let superscript : Literal := ⟨"²", false, ""⟩
    ((loads Calculator.shippedArithmetic 0 Memory.empty
          [0, 0, 0, 1, 0, 0, 1, 49, 0, 0, 1, 53]).1 = .ok [.literal pointless] ∧
      ¬ pointless.Numeric ∧ pointless.exact = .ok (3 / 2) ∧ pointless.real = .ok (.rational 1) ∧
      pointless.typedText = "1") ∧
    (loads Calculator.shippedArithmetic 0 Memory.empty
          [0, 0, 0, 1, 0, 0, 2, 0xc2, 0xb2, 0, 0, 0]).1 = .ok [.literal superscript] ∧
      ¬ superscript.Numeric ∧ superscript.exact = .error .malformed ∧
      superscript.real = .error .malformed := by
  intro pointless superscript
  refine ⟨⟨by cbv, ?_, by decide +kernel, by decide +kernel, rfl⟩, by cbv, ?_, by cbv, by cbv⟩
  · intro h
    exact absurd (h.point rfl) (by decide)
  · intro h
    exact absurd (h.whole '²' (by simp [superscript])) (by decide)

end Codec

end Reckoner
