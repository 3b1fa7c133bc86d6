import Reckoner.Expression
/-!
Typed text word by word. A word is a blank, a name or a character that stands for a key, at the front of
the text (`Word`). Typing reads words for as long as there is one that the expression takes
(`type_eq_iff`), so that what text comes to can be told from its words alone.
-/
namespace Reckoner

namespace Lexicon

variable {k : Key} {n : Nat}

theorem names_ne_nil : ∀ entry ∈ names, entry.1 ≠ [] := by decide

theorem length_le_of_name? {text : List Char} (h : name? text = some (k, n)) : n ≤ text.length := by
  obtain ⟨entry, hfind, heq⟩ := Option.map_eq_some_iff.1 h
  obtain rfl := (Prod.mk.inj heq).2
  have hfront := List.find?_some hfind
  exact (List.isPrefixOf_iff_prefix.1 hfront).length_le

theorem length_pos_of_name? {text : List Char} (h : name? text = some (k, n)) : 0 < n := by
  obtain ⟨entry, hfind, heq⟩ := Option.map_eq_some_iff.1 h
  obtain rfl := (Prod.mk.inj heq).2
  exact List.length_pos_iff.2 (names_ne_nil entry (List.mem_of_find?_eq_some hfind))

end Lexicon

/-! A key that is refused changes nothing. -/

theorem Literal.type_of_refused {l : Literal} {k : Key} : (l.type k).1 = false → (l.type k).2 = l := by
  unfold type
  split
  · split
    · exact fun _ => rfl
    · exact fun h => nomatch h
  · split <;> exact fun h => nomatch h

namespace Expression

variable {e e' : Expression} {k : Key} {text rest : List Char} {words : Nat}

theorem addToNumber_of_refused : (e.addToNumber k).1 = false → (e.addToNumber k).2 = e := by
  unfold addToNumber
  split
  · rename_i l hlast
    obtain ⟨init, rfl⟩ := List.getLast?_eq_some_iff.1 hlast
    intro h
    rw [List.dropLast_concat]
    exact congrArg (fun l => init ++ [.literal l]) (Literal.type_of_refused h)
  · split
    · exact fun _ => rfl
    · exact fun h => nomatch h
  · exact fun h => nomatch h

theorem add_of_refused : (e.add k).1 = false → (e.add k).2 = e := by
  unfold add
  split
  · exact addToNumber_of_refused
  · exact addToNumber_of_refused
  · split
    · exact fun _ => rfl
    · exact fun h => nomatch h
  · exact fun h => nomatch h

/-! Words. -/

/-- The expression after a name: that of the root opens a parenthesis of its own. -/
def afterName (e : Expression) (k : Key) : Expression := if k = .root then (e.add .opening).2 else e

/-- `Word e text e' rest`: the first word of the text, or a blank in its place, makes `e'` of `e`, and
`rest` is the text after it. There is none where the word is unknown or refused. -/
inductive Word : Expression → List Char → Expression → List Char → Prop where
  | blank {e : Expression} {c : Char} {text : List Char} (hc : Text.isBlank c = true) :
      Word e (c :: text) e text
  | name {e e' : Expression} {c : Char} {text : List Char} {k : Key} {length : Nat}
      (hc : Text.isBlank c = false) (hname : Lexicon.name? (c :: text) = some (k, length))
      (hadd : e.add k = (true, e')) : Word e (c :: text) (e'.afterName k) ((c :: text).drop length)
  | char {e e' : Expression} {c : Char} {text : List Char} {k : Key}
      (hc : Text.isBlank c = false) (hname : Lexicon.name? (c :: text) = none)
      (hk : Lexicon.charKey? c = some k) (hadd : e.add k = (true, e')) : Word e (c :: text) e' text

/-- `Words e text e' rest`: words at the front of the text make `e'` of `e`, and `rest` is the text after
them. -/
inductive Words : Expression → List Char → Expression → List Char → Prop where
  | nil {e : Expression} {text : List Char} : Words e text e text
  | cons {e e₁ e' : Expression} {text text₁ rest : List Char} (hword : Word e text e₁ text₁)
      (hwords : Words e₁ text₁ e' rest) : Words e text e' rest

/-! Typing reads words, and stops where there is none. -/

theorem feed_of_word (h : Word e text e' rest) :
    type.feed (words + 1) e text = type.feed words e' rest := by
  cases h with
  | blank hc => rw [type.feed, if_pos hc]
  | name hc hname hadd =>
    rw [type.feed, hc, if_neg Bool.false_ne_true, hname]
    dsimp only
    rw [hadd]
    rfl
  | char hc hname hk hadd =>
    rw [type.feed, hc, if_neg Bool.false_ne_true, hname]
    dsimp only
    rw [hk]
    dsimp only
    rw [hadd]

theorem feed_of_no_word (h : ∀ e' rest, ¬ Word e text e' rest) :
    type.feed words e text = (e, text) := by
  fun_cases type.feed words e text with
  | case3 words e c text hc => exact absurd (.blank hc) (h _ _)
  | case4 words e c text hc k length hname e₁ hadd | case7 words e c text hc hname k hk e₁ hadd =>
    have hsame : (e.add k).2 = e := add_of_refused (congrArg Prod.fst hadd)
    rw [hadd] at hsame
    exact congrArg (·, c :: text) hsame
  | case5 words e c text hc k length hname e₁ hadd e₂ =>
    exact absurd (.name (Bool.eq_false_iff.2 hc) hname hadd) (h _ _)
  | case8 words e c text hc hname k hk e₁ hadd =>
    exact absurd (.char (Bool.eq_false_iff.2 hc) hname hk hadd) (h _ _)
  | _ => rfl

/-- A word has characters. -/
theorem Word.exists_eq (h : Word e text e' rest) : ∃ word, word ≠ [] ∧ text = word ++ rest := by
  cases h with
  | blank | char => exact ⟨[_], List.cons_ne_nil _ _, rfl⟩
  | name hc hname hadd =>
    refine ⟨_, fun hnil => ?_, (List.take_append_drop _ _).symm⟩
    have hpos := Lexicon.length_pos_of_name? hname
    rcases List.take_eq_nil_iff.1 hnil with hzero | hcons
    · omega
    · exact List.cons_ne_nil _ _ hcons

theorem Word.length_lt (h : Word e text e' rest) : rest.length < text.length := by
  obtain ⟨word, hword, rfl⟩ := h.exists_eq
  have hpos := List.length_pos_iff.2 hword
  rw [List.length_append]
  omega

theorem exists_word_or (e : Expression) (text : List Char) :
    (∃ e' rest, Word e text e' rest) ∨ ∀ e' rest, ¬ Word e text e' rest := by
  by_cases h : ∃ e' rest, Word e text e' rest
  · exact .inl h
  · exact .inr fun e' rest hword => h ⟨e', rest, hword⟩

/-- Reading at most as many words as there are characters is reading all of them. -/
theorem feed_congr {m n : Nat} (hm : text.length ≤ m) (hn : text.length ≤ n) :
    type.feed m e text = type.feed n e text := by
  induction m generalizing n e text with
  | zero =>
    obtain rfl := List.eq_nil_of_length_eq_zero (Nat.le_zero.1 hm)
    rw [type.feed, type.feed]
  | succ m ih =>
    rcases exists_word_or e text with ⟨e', rest, hword⟩ | hno
    · have hlt := hword.length_lt
      obtain ⟨n, rfl⟩ : ∃ n', n = n' + 1 := ⟨n - 1, by omega⟩
      rw [feed_of_word hword, feed_of_word hword]
      exact ih (by omega) (by omega)
    · rw [feed_of_no_word hno, feed_of_no_word hno]

theorem type_of_word (h : Word e text e' rest) : e.type text = e'.type rest := by
  have hlt := h.length_lt
  obtain ⟨n, hn⟩ : ∃ n, text.length = n + 1 := ⟨text.length - 1, by omega⟩
  rw [type, hn, feed_of_word h]
  exact feed_congr (by omega) (Nat.le_refl _)

theorem type_of_words (h : Words e text e' rest) : e.type text = e'.type rest := by
  induction h with
  | nil => rfl
  | cons hword _ ih => rw [type_of_word hword, ih]

/-- Typing gives the expression and the rest exactly if words lead there and no word follows. -/
theorem type_eq_iff :
    e.type text = (e', rest) ↔ Words e text e' rest ∧ ∀ e'' rest', ¬ Word e' rest e'' rest' := by
  constructor
  · intro h
    induction hn : text.length using Nat.strongRecOn generalizing e text with
    | _ n ih =>
      rcases exists_word_or e text with ⟨e₁, text₁, hword⟩ | hno
      · rw [type_of_word hword] at h
        obtain ⟨hwords, hno⟩ := ih _ (hn ▸ hword.length_lt) h rfl
        exact ⟨.cons hword hwords, hno⟩
      · rw [type, feed_of_no_word hno] at h
        obtain ⟨rfl, rfl⟩ := Prod.mk.inj h
        exact ⟨.nil, hno⟩
  · rintro ⟨hwords, hno⟩
    rw [type_of_words hwords, type, feed_of_no_word hno]

theorem not_word_nil : ¬ Word e [] e' rest := by
  intro h
  have hlt := h.length_lt
  simp at hlt

theorem not_word_of_refused {c : Char} (hc : Text.isBlank c = false)
    (hname : Lexicon.name? (c :: text) = none) (hk : Lexicon.charKey? c = some k)
    (hadd : (e.add k).1 = false) : ¬ Word e (c :: text) e' rest := by
  intro h
  cases h with
  | blank hblank => cases hc.symm.trans hblank
  | name _ hname' => cases hname.symm.trans hname'
  | char _ _ hk' hadd' =>
    obtain rfl := Option.some.inj (hk.symm.trans hk')
    cases hadd.symm.trans (congrArg Prod.fst hadd')

theorem not_word_of_unknown {c : Char} (hc : Text.isBlank c = false)
    (hname : Lexicon.name? (c :: text) = none) (hk : Lexicon.charKey? c = none) :
    ¬ Word e (c :: text) e' rest := by
  intro h
  cases h with
  | blank hblank => cases hc.symm.trans hblank
  | name _ hname' => cases hname.symm.trans hname'
  | char _ _ hk' => cases hk.symm.trans hk'

end Expression

end Reckoner
