import Reckoner.Calculator
import Reckoner.Proofs.Captions
import Reckoner.Proofs.Conversion
import Reckoner.Proofs.Tidiness
import Reckoner.Proofs.Words
/-!
Displays that are typed back in. Whatever was taken back on the way, an expression is made by pressing
some keys one after the other (`exists_press`), and its display is what these keys look like. Read
from the front, the looks fall apart into the same keys again (`words_press`).
-/
namespace Reckoner

/-- What is done to an expression at the keypad. -/
inductive Keystroke where
  | add (k : Key)
  | delete
  | clear

namespace Expression

/-- The expression after a keystroke. -/
def strike (e : Expression) : Keystroke → Expression
  | .add k => (e.add k).2
  | .delete => e.delete
  | .clear => []

/-- The expression that keystrokes make of an empty one. -/
def struck (strokes : List Keystroke) : Expression := strokes.foldl strike []

/-- The expression after some keys, if none of them is refused. -/
def press? (e : Expression) (keys : List Key) : Option Expression :=
  keys.foldlM (fun e k => if (e.add k).1 then some (e.add k).2 else none) e

end Expression

/-! A key that was added is what `delete` takes back. -/

namespace Literal

variable {l l' : Literal} {k : Key}

theorem dropLast_append_digit (s : String) (d : Fin 10) : dropLast (s ++ digitText (.digit d)) = s := by
  have hdigit : ∃ c, (digitText (.digit d)).toList = [c] := by
    refine ⟨Text.digitChar d.val, ?_⟩
    revert d
    decide
  obtain ⟨c, hc⟩ := hdigit
  rw [dropLast, String.toList_append, hc, List.dropLast_concat, String.ofList_toList]

theorem delete_type (hl : l.WellFormed) (hk : k = .point ∨ ∃ d, k = .digit d)
    (ht : l.type k = (true, l')) : l'.delete = l := by
  have hfraction := hl.point
  obtain ⟨whole, point, fraction⟩ := l
  unfold type at ht
  cases point with
  | true =>
    rcases hk with rfl | ⟨d, rfl⟩
    · cases ht
    · cases ht
      simp [delete, isEmpty_append_digit, dropLast_append_digit]
  | false =>
    obtain rfl : fraction = "" := hfraction rfl
    rcases hk with rfl | ⟨d, rfl⟩
    · cases ht
      rfl
    · cases ht
      simp [delete, dropLast_append_digit]

theorem type_empty (k : Key) : empty.type k = (true, (empty.type k).2) := by
  unfold type
  split <;> rfl

end Literal

namespace Expression

variable {e e' : Expression} {k : Key}

/-- The number at the end goes on, or a number begins. -/
def NumberGrows (e : Expression) (k : Key) (e' : Expression) : Prop :=
  (∃ (init : Expression) (l l' : Literal), e = init ++ [Token.literal l] ∧ l.type k = (true, l') ∧
      e' = init ++ [Token.literal l']) ∨
    ∃ l' : Literal, Literal.empty.type k = (true, l') ∧ e' = e ++ [Token.literal l']

theorem addToNumber_eq_true (h : e.addToNumber k = (true, e')) : e.NumberGrows k e' := by
  unfold addToNumber at h
  split at h
  · rename_i l hlast
    obtain ⟨init, rfl⟩ := List.getLast?_eq_some_iff.1 hlast
    rcases htype : l.type k with ⟨taken, l'⟩
    rw [htype, List.dropLast_concat] at h
    obtain ⟨rfl, rfl⟩ := Prod.mk.inj h
    exact .inl ⟨init, l, l', rfl, htype, rfl⟩
  · split at h
    · cases h
    · cases h
      exact .inr ⟨_, Literal.type_empty k, rfl⟩
  · cases h
    exact .inr ⟨_, Literal.type_empty k, rfl⟩

theorem add_eq_true (h : e.add k = (true, e')) :
    ((k = .point ∨ ∃ d, k = .digit d) ∧ e.NumberGrows k e') ∨
      (k.digit? = none ∧ k ≠ .point ∧ e' = e ++ [Token.operator k]) := by
  unfold add at h
  split at h
  · exact .inl ⟨.inr ⟨_, rfl⟩, addToNumber_eq_true h⟩
  · exact .inl ⟨.inl rfl, addToNumber_eq_true h⟩
  · split at h
    · cases h
    · exact .inr ⟨rfl, Key.noConfusion, (Prod.mk.inj h).2.symm⟩
  · rename_i hdigit hpoint _
    refine .inr ⟨?_, hpoint, (Prod.mk.inj h).2.symm⟩
    cases k with
    | digit d => exact absurd rfl (hdigit d)
    | _ => rfl

theorem delete_concat_literal (e : Expression) (l : Literal) :
    delete (e ++ [.literal l]) = if l.delete.isEmpty then e else e ++ [.literal l.delete] := by
  simp [delete]

theorem delete_concat_operator (e : Expression) (k : Key) : delete (e ++ [.operator k]) = e := by
  simp [delete]

theorem delete_add (he : e.Tidy) (h : e.add k = (true, e')) : e'.delete = e := by
  rcases add_eq_true h with ⟨hk, ⟨init, l, l', rfl, hl', rfl⟩ | ⟨l', hl', rfl⟩⟩ | ⟨-, -, rfl⟩
  · obtain ⟨hl, hempty⟩ := he.last List.getLast?_concat
    rw [delete_concat_literal, Literal.delete_type hl hk hl', hempty]
    rfl
  · rw [delete_concat_literal, Literal.delete_type Literal.wellFormed_empty hk hl']
    rfl
  · exact delete_concat_operator e k

theorem press?_cons_eq_some {k : Key} {keys : List Key} (h : e.press? (k :: keys) = some e') :
    ∃ e₁, e.add k = (true, e₁) ∧ e₁.press? keys = some e' := by
  rw [press?, List.foldlM_cons] at h
  obtain ⟨e₁, hadd, h⟩ := Option.bind_eq_some_iff.1 h
  split at hadd
  · exact ⟨e₁, Prod.ext ‹_› (Option.some.inj hadd), h⟩
  · cases hadd

theorem press?_concat_eq_some_iff {keys : List Key} {k : Key} :
    e.press? (keys ++ [k]) = some e' ↔ ∃ e₁, e.press? keys = some e₁ ∧ e₁.add k = (true, e') := by
  rw [press?, List.foldlM_append, Option.bind_eq_bind, Option.bind_eq_some_iff]
  refine exists_congr fun e₁ => and_congr_right fun _ => ?_
  rw [List.foldlM_cons]
  rcases e₁.add k with ⟨_ | _, e₂⟩ <;> simp

theorem Tidy.press? {keys : List Key} (he : e.Tidy) (h : e.press? keys = some e') : e'.Tidy := by
  induction keys using List.reverseRecOn generalizing e' with
  | nil => exact Option.some.inj h ▸ he
  | append_singleton keys k ih =>
    obtain ⟨e₁, h₁, hadd⟩ := press?_concat_eq_some_iff.1 h
    have htidy := (ih h₁).add k
    rwa [hadd] at htidy

/-- One keystroke. -/
theorem exists_press_strike {keys : List Key} (h : press? [] keys = some e) (stroke : Keystroke) :
    ∃ keys', press? [] keys' = some (e.strike stroke) := by
  cases stroke with
  | clear => exact ⟨[], rfl⟩
  | add k =>
    cases htaken : (e.add k).1 with
    | false => exact ⟨keys, by rw [strike, add_of_refused htaken]; exact h⟩
    | true => exact ⟨keys ++ [k], press?_concat_eq_some_iff.2 ⟨e, h, Prod.ext htaken rfl⟩⟩
  | delete =>
    rcases List.eq_nil_or_concat keys with rfl | ⟨keys', k, rfl⟩
    · obtain rfl := Option.some.inj h
      exact ⟨[], rfl⟩
    · rw [List.concat_eq_append] at h
      obtain ⟨e₁, h₁, hadd⟩ := press?_concat_eq_some_iff.1 h
      exact ⟨keys', by rw [h₁, strike, delete_add (Tidy.nil.press? h₁) hadd]⟩

/-- Every run. -/
theorem exists_press (strokes : List Keystroke) : ∃ keys, press? [] keys = some (struck strokes) := by
  induction strokes using List.reverseRecOn with
  | nil => exact ⟨[], rfl⟩
  | append_singleton strokes stroke ih =>
    obtain ⟨keys, h⟩ := ih
    rw [struck, List.foldl_concat]
    exact exists_press_strike h stroke

end Expression

/-! The display is what the keys look like, one after the other. -/

/-- How a key looks where the separator stands for the point. -/
def Key.shown (separator : String) (k : Key) : String := Literal.localized separator k.glyph

def Token.shown (separator : String) : Token → String
  | .literal l => Literal.localized separator l.typedText
  | .operator k => k.glyph
  | .collapsed _ _ _ _ short => Literal.localized separator short

def Expression.shown (separator : String) (e : Expression) : String :=
  String.join (e.map (Token.shown separator))

section Shown

variable {files : Files} {separator : String} {e e' : Expression} {k : Key}

theorem Key.shown_of_ne_point (h : k ≠ .point) : k.shown separator = k.glyph := by
  refine Literal.localized_eq_self fun c hc => if_neg ?_
  rintro rfl
  cases k with
  | digit d =>
    revert d
    decide
  | point => exact h rfl
  | binary op => cases op <;> revert hc <;> decide
  | suffix op => cases op <;> revert hc <;> decide
  | function f => cases f <;> revert hc <;> decide
  | constant c => cases c <;> revert hc <;> decide
  | _ => revert hc; decide

theorem Token.caption_eq (hlooks : files.PlainLooks)
    (hseparator : Settings.localize files "." = .ok separator) (t : Token) :
    t.caption files = .ok (.text (t.shown separator)) := by
  cases t with
  | literal l => simp only [caption, Literal.display, Literal.localize_eq hseparator]; rfl
  | collapsed _ _ _ _ short => simp only [caption, Literal.localize_eq hseparator]; rfl
  | operator k =>
    rw [caption, shown]
    cases k with
    | digit d =>
      have hglyph : (Key.digit d).shown separator = (Key.digit d).glyph :=
        Key.shown_of_ne_point Key.noConfusion
      rw [← hglyph]
      simp only [Settings.caption, Literal.localize_eq hseparator]
      rfl
    | _ => exact hlooks _ rfl

theorem Json.mapM_text {f : Json → Except SettingsError String} (hf : ∀ s, f (.text s) = .ok s)
    (texts : List String) : (texts.map Json.text).mapM f = .ok texts := by
  induction texts with
  | nil => rfl
  | cons s texts ih => rw [List.map_cons, List.mapM_cons, hf, ih]; rfl

theorem Expression.display_eq (hlooks : files.PlainLooks)
    (hseparator : Settings.localize files "." = .ok separator) (e : Expression) :
    e.display files = .ok (e.shown separator) := by
  have hcaptions :
      e.mapM (Token.caption files) = .ok ((e.map (Token.shown separator)).map Json.text) := by
    induction e with
    | nil => rfl
    | cons t ts ih => rw [List.mapM_cons, Token.caption_eq hlooks hseparator, ih]; rfl
  rw [display, hcaptions]
  refine bind_eq_ok_iff.2 ⟨_, rfl, bind_eq_ok_iff.2 ⟨_, Json.mapM_text (fun _ => rfl) _, rfl⟩⟩

theorem Expression.shown_concat (e : Expression) (t : Token) :
    shown separator (e ++ [t]) = e.shown separator ++ t.shown separator := by
  simp [shown, String.join_append]

theorem Literal.typedText_type {l l' : Literal} (hl : l.WellFormed)
    (hk : k = .point ∨ ∃ d, k = .digit d) (ht : l.type k = (true, l')) :
    l'.typedText = l.typedText ++ k.glyph := by
  have hfraction := hl.point
  obtain ⟨whole, point, fraction⟩ := l
  unfold type at ht
  cases point with
  | true =>
    rcases hk with rfl | ⟨d, rfl⟩
    · cases ht
    · cases ht
      simp [typedText, String.append_assoc, digitText, Key.digit?, Key.glyph]
  | false =>
    obtain rfl : fraction = "" := hfraction rfl
    rcases hk with rfl | ⟨d, rfl⟩
    · cases ht
      simp [typedText, Key.glyph]
    · cases ht
      simp [typedText, digitText, Key.digit?, Key.glyph]

theorem Expression.shown_add (he : e.Tidy) (h : e.add k = (true, e')) :
    e'.shown separator = e.shown separator ++ k.shown separator := by
  rcases add_eq_true h with ⟨hk, ⟨init, l, l', rfl, hl', rfl⟩ | ⟨l', hl', rfl⟩⟩ | ⟨-, hpoint, rfl⟩
  · rw [shown_concat, shown_concat, Token.shown, Token.shown,
      Literal.typedText_type (he.last List.getLast?_concat).1 hk hl', Literal.localized_append,
      String.append_assoc, Key.shown]
  · rw [shown_concat, Token.shown, Literal.typedText_type Literal.wellFormed_empty hk hl',
      Key.shown]
    rfl
  · rw [shown_concat, Token.shown, Key.shown_of_ne_point hpoint]

theorem Expression.shown_press {keys : List Key} (h : press? [] keys = some e) :
    (e.shown separator).toList = keys.flatMap fun k => (k.shown separator).toList := by
  induction keys using List.reverseRecOn generalizing e with
  | nil =>
    obtain rfl := Option.some.inj h
    rfl
  | append_singleton keys k ih =>
    obtain ⟨e₁, h₁, hadd⟩ := press?_concat_eq_some_iff.1 h
    rw [shown_add (Tidy.nil.press? h₁) hadd, String.toList_append, ih h₁, List.flatMap_append,
      List.flatMap_singleton]

end Shown

/-! Text that is made of looks is read as the keys it was made of. -/

theorem Text.isBlank_eq_any (c : Char) :
    isBlank c = blanks.toList.any fun range => range.1 ≤ c.toNat && c.toNat ≤ range.2 := by
  rw [isBlank, Ranges.has, ← Array.any_toList]

namespace Lexicon

/-- A character that stands for a key, whatever follows, unless it is an x. -/
def Reads (c : Char) (k : Key) : Prop :=
  charKey? c = some k ∧ Text.isBlank c = false ∧ c ≠ 'x' ∧
    ∀ entry ∈ names, entry.1.head? = some c → entry.1[1]? = some 'x'

theorem Reads.name?_eq_none {c : Char} {k : Key} {rest : List Char} (h : Reads c k)
    (hrest : rest.head? ≠ some 'x') : name? (c :: rest) = none := by
  rw [name?, Option.map_eq_none_iff, List.find?_eq_none]
  intro entry hentry hprefix
  obtain ⟨after, hafter⟩ := List.isPrefixOf_iff_prefix.1 hprefix
  cases hname : entry.1 with
  | nil => exact names_ne_nil entry hentry hname
  | cons c' cs =>
    rw [hname, List.cons_append, List.cons.injEq] at hafter
    have hsecond := h.2.2.2 entry hentry (by rw [hname, hafter.1]; rfl)
    rw [hname, List.getElem?_cons_succ, ← List.head?_eq_getElem?] at hsecond
    refine hrest ?_
    rw [← hafter.2, List.head?_append, hsecond]
    rfl

/-- A key that is no function looks like a character that stands for it. -/
theorem reads_glyph {k : Key} (hk : k.isFunction = false) :
    ∃ c, k.glyph.toList = [c] ∧ Reads c k := by
  simp only [Reads, Text.isBlank_eq_any]
  cases k with
  | digit d =>
    refine ⟨Text.digitChar d.val, ?_⟩
    revert d
    decide
  | function => cases hk
  | binary op =>
    cases op <;> simp only [Key.glyph, String.reduceToList, List.cons.injEq, and_true, exists_eq_left']
      <;> decide
  | suffix op =>
    cases op <;> simp only [Key.glyph, String.reduceToList, List.cons.injEq, and_true, exists_eq_left']
      <;> decide
  | constant c =>
    cases c <;> simp only [Key.glyph, String.reduceToList, List.cons.injEq, and_true, exists_eq_left']
      <;> decide
  | _ =>
    simp only [Key.glyph, String.reduceToList, List.cons.injEq, and_true, exists_eq_left']
    decide

theorem reads_comma : Reads ',' .point := by
  simp only [Reads, Text.isBlank_eq_any]
  decide

theorem name?_function (f : FunctionName) (rest : List Char) :
    name? ((Key.function f).glyph.toList ++ rest) =
      some (.function f, (Key.function f).glyph.toList.length) := by
  cases f <;> rfl

theorem function_glyph_head (f : FunctionName) :
    ∃ c, (Key.function f).glyph.toList.head? = some c ∧ Text.isBlank c = false ∧ c ≠ 'x' := by
  simp only [Text.isBlank_eq_any]
  cases f <;>
    simp only [Key.glyph, String.reduceToList, List.head?_cons, Option.some.injEq, exists_eq_left']
      <;> decide

end Lexicon

namespace Expression

variable {separator : String} {e e' : Expression} {k : Key} {keys : List Key}

theorem exists_reads (hseparator : separator = "." ∨ separator = ",") (hk : k.isFunction = false) :
    ∃ c, (k.shown separator).toList = [c] ∧ Lexicon.Reads c k := by
  obtain ⟨c, hc⟩ := Lexicon.reads_glyph hk
  by_cases hpoint : k = .point
  · subst hpoint
    rw [Key.shown, Key.glyph, Literal.localized_point]
    rcases hseparator with rfl | rfl
    · exact ⟨c, hc⟩
    · exact ⟨',', rfl, Lexicon.reads_comma⟩
  · rw [Key.shown_of_ne_point hpoint]
    exact ⟨c, hc⟩

/-- No look of a key starts with an x. -/
theorem head_shown (hseparator : separator = "." ∨ separator = ",") (k : Key) :
    ∃ c, (k.shown separator).toList.head? = some c ∧ c ≠ 'x' := by
  cases hk : k.isFunction with
  | false =>
    obtain ⟨c, hc, hreads⟩ := exists_reads hseparator hk
    exact ⟨c, by rw [hc]; rfl, hreads.2.2.1⟩
  | true =>
    cases k with
    | function f =>
      obtain ⟨c, hc, -, hx⟩ := Lexicon.function_glyph_head f
      exact ⟨c, by rw [Key.shown_of_ne_point Key.noConfusion, hc], hx⟩
    | _ => cases hk

theorem head_flatMap_shown (hseparator : separator = "." ∨ separator = ",") (keys : List Key) :
    (keys.flatMap fun k => (k.shown separator).toList).head? ≠ some 'x' := by
  cases keys with
  | nil => simp
  | cons k keys =>
    obtain ⟨c, hc, hx⟩ := head_shown hseparator k
    rw [List.flatMap_cons, List.head?_append, hc]
    exact fun h => hx (Option.some.inj h)

/-- The look of a key is one word. -/
theorem word_shown {rest : List Char} (hseparator : separator = "." ∨ separator = ",")
    (hadd : e.add k = (true, e')) (hrest : rest.head? ≠ some 'x') :
    Word e ((k.shown separator).toList ++ rest) e' rest := by
  cases hk : k.isFunction with
  | false =>
    obtain ⟨c, hc, hreads⟩ := exists_reads hseparator hk
    rw [hc]
    exact .char hreads.2.1 (hreads.name?_eq_none hrest) hreads.1 hadd
  | true =>
    cases k with
    | function f =>
      rw [Key.shown_of_ne_point Key.noConfusion]
      obtain ⟨c, hc, hblank, -⟩ := Lexicon.function_glyph_head f
      have hname := Lexicon.name?_function f rest
      have hdrop : ((Key.function f).glyph.toList ++ rest).drop
          (Key.function f).glyph.toList.length = rest := List.drop_left
      obtain ⟨cs, hcs⟩ := List.head?_eq_some_iff.1 hc
      rw [hcs, List.cons_append] at hname hdrop ⊢
      have hword := Word.name hblank hname hadd
      rwa [hdrop] at hword
    | _ => cases hk

theorem words_press (hseparator : separator = "." ∨ separator = ",") (h : e.press? keys = some e') :
    Words e (keys.flatMap fun k => (k.shown separator).toList) e' [] := by
  induction keys generalizing e with
  | nil =>
    obtain rfl := Option.some.inj h
    exact .nil
  | cons k keys ih =>
    obtain ⟨e₁, hadd, h⟩ := press?_cons_eq_some h
    rw [List.flatMap_cons]
    exact .cons (word_shown hseparator hadd (head_flatMap_shown hseparator keys)) (ih h)

/-- What keystrokes make is made again by typing what it looks like. -/
theorem type_shown (hseparator : separator = "." ∨ separator = ",") (strokes : List Keystroke) :
    type [] ((struck strokes).shown separator).toList = (struck strokes, []) := by
  obtain ⟨keys, h⟩ := exists_press strokes
  rw [shown_press h]
  exact type_eq_iff.2 ⟨words_press hseparator h, fun _ _ => not_word_nil⟩

end Expression

namespace Settings

variable {files : Files} {separator : String}

theorem localize_point (h : value files "decimal_separator" = .ok (.text separator))
    (hnonempty : separator ≠ "") : localize files "." = .ok separator := by
  have htruthy : (Json.text separator).truthy = true := by simpa [Json.truthy] using hnonempty
  refine bind_eq_ok_iff.2 ⟨_, h, ?_⟩
  rw [htruthy]
  exact congrArg Except.ok (Literal.localized_point separator)

end Settings

/-- An expression that comes of keystrokes can be displayed where the looks are plain, as those shipped
(`Files.plainLooks_of_shipped`) and those built in (`Files.plainLooks_of_none`) are. Its display, typed
into an empty buffer, is converted as a whole to the same expression, which is the only one displayed
so. -/
theorem Calculator.type_display {files : Files} {separator : String} (hlooks : files.PlainLooks)
    (hvalue : Settings.value files "decimal_separator" = .ok (.text separator))
    (hseparator : separator = "." ∨ separator = ",") (strokes : List Keystroke) :
    ∃ text, (Expression.struck strokes).display files = .ok text ∧
      (∀ c : Calculator, c.buffer = [] →
        c.type text = (none, { c with buffer := Expression.struck strokes })) ∧
      ∀ strokes', (Expression.struck strokes').display files = .ok text →
        Expression.struck strokes' = Expression.struck strokes := by
  have hnonempty : separator ≠ "" := by rcases hseparator with rfl | rfl <;> decide
  have hpoint := Settings.localize_point hvalue hnonempty
  have htyped := Expression.type_shown hseparator
  refine ⟨_, Expression.display_eq hlooks hpoint _, fun c hc => ?_, fun strokes' h => ?_⟩
  · rw [Calculator.type, hc, htyped]
    rfl
  · rw [Expression.display_eq hlooks hpoint] at h
    have htyped' := htyped strokes'
    rw [Except.ok.inj h, htyped] at htyped'
    exact (congrArg Prod.fst htyped').symm

/-- With commas for points, a digit is taken back and two functions of e follow. -/
theorem Calculator.type_display_comma :
    let comma : Json := .table [("decimal_separator", .text ",")]
    let files : Files := { Files.shipped with settings := some (Json.write 0 comma) }
    let strokes : List Keystroke :=
      [.add (.digit 7), .clear, .add (.digit 2), .add .point, .add (.digit 5), .delete,
        .add (.constant .e), .add (.function .exp)]
    let calculator : Calculator := ⟨false, .integer 12, [], 0, Reals.Memory.empty⟩
    Settings.value files "decimal_separator" = .ok (.text ",") ∧
      (Expression.struck strokes).display files = .ok "2,eexp(" ∧
      calculator.type "2,eexp(" =
        (none, { calculator with
          buffer := [.literal ⟨"2", true, ""⟩, .operator (.constant .e),
            .operator (.function .exp)] }) := by
  intro comma files strokes calculator
  have hlooks : files.PlainLooks := Files.plainLooks_of_shipped rfl
  have hcomma : Json.IsCaptions Settings.nestingLimit comma :=
    .table (by decide) (List.forall_mem_singleton.2 (Json.isBasic_of_all (by decide +kernel)))
      (List.forall_mem_singleton.2 (.text (Json.isBasic_of_all (by decide))))
  have hvalue : Settings.value files "decimal_separator" = .ok (.text ",") := by
    rw [Settings.value, Settings.all_written rfl hcomma]
    rfl
  have hstruck : Expression.struck strokes =
      [.literal ⟨"2", true, ""⟩, .operator (.constant .e), .operator (.function .exp)] := rfl
  have hdisplay : (Expression.struck strokes).display files = .ok "2,eexp(" := by
    rw [Expression.display_eq hlooks (Settings.localize_point hvalue (by decide)), hstruck]
    decide
  obtain ⟨text, htext, htype, -⟩ := Calculator.type_display hlooks hvalue (.inr rfl) strokes
  obtain rfl : "2,eexp(" = text := Except.ok.inj (hdisplay.symm.trans htext)
  exact ⟨hvalue, hdisplay, by rw [htype calculator rfl, hstruck]⟩

end Reckoner
