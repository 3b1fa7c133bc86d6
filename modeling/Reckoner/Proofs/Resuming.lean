import Mathlib.Data.List.Find
import Reckoner.Calculator
import Reckoner.Proofs.Words
/-!
Typed text in parts. Text is read word by word (`Expression.Word`), and which word comes first depends on
the characters of that word alone, unless a name goes on after the end of the text. So text can be cut
wherever no name straddles the cut, and blanks can be put there (`type_append`); and what is left over
is left over again when it is typed again (`exists_of_type`).
-/
namespace Reckoner

namespace Lexicon

variable {p s : List Char} {k : Key} {n : Nat}

/-- Whether a name begins before a cut of the text and goes on after it. -/
def Straddles (p s : List Char) : Prop :=
  ∃ entry ∈ names, ∃ before after, entry.1 = before ++ after ∧ before ≠ [] ∧ after ≠ [] ∧
    before <:+ p ∧ after <+: s

theorem Straddles.of_suffix {p' : List Char} (h : Straddles p' s) (hp : p' <:+ p) :
    Straddles p s := by
  obtain ⟨entry, hentry, before, after, heq, hbefore, hafter, hsuffix, hfront⟩ := h
  exact ⟨entry, hentry, before, after, heq, hbefore, hafter, hsuffix.trans hp, hfront⟩

theorem not_isBlank_of_mem_names : ∀ entry ∈ names, ∀ c ∈ entry.1, Text.isBlank c = false := by
  have hall : (names.all fun entry => entry.1.all fun c => !Text.isBlank c) = true := by
    decide +kernel
  intro entry hentry c hc
  have hc' := List.all_eq_true.1 (List.all_eq_true.1 hall entry hentry) c hc
  rwa [Bool.not_eq_true'] at hc'

theorem not_straddles_of_not_mem {c : Char} (hc : ∀ entry ∈ names, c ∉ entry.1) :
    ¬ Straddles p (c :: s) := by
  rintro ⟨entry, hentry, before, after, heq, -, hafter, -, hfront⟩
  obtain ⟨a, as, rfl⟩ := List.exists_cons_of_ne_nil hafter
  obtain rfl : a = c := (List.cons_prefix_cons.1 hfront).1
  refine hc entry hentry ?_
  rw [heq]
  exact List.mem_append_right _ List.mem_cons_self

/-- No name goes on with a blank. -/
theorem not_straddles_of_isBlank {c : Char} (hc : Text.isBlank c = true) : ¬ Straddles p (c :: s) := by
  refine not_straddles_of_not_mem fun entry hentry hmem => ?_
  rw [not_isBlank_of_mem_names entry hentry c hmem] at hc
  cases hc

theorem not_straddles_append {blanks : List Char} (h : ∀ c ∈ blanks, Text.isBlank c = true)
    (hcut : blanks = [] → ¬ Straddles p s) : ¬ Straddles p (blanks ++ s) := by
  cases blanks with
  | nil => exact hcut rfl
  | cons c cs => exact not_straddles_of_isBlank (h c List.mem_cons_self)

/-- Where no name straddles the end of the text, more text makes no other name of its beginning. -/
theorem name?_append (hp : p ≠ []) (h : ¬ Straddles p s) : name? (p ++ s) = name? p := by
  have hsame : ∀ entry ∈ names, entry.1.isPrefixOf (p ++ s) = entry.1.isPrefixOf p := by
    intro entry hentry
    rw [Bool.eq_iff_iff, List.isPrefixOf_iff_prefix, List.isPrefixOf_iff_prefix]
    refine ⟨fun hname => ?_, fun hname => hname.trans (List.prefix_append p s)⟩
    rcases List.prefix_or_prefix_of_prefix hname (List.prefix_append p s) with hle | ⟨after, hafter⟩
    · exact hle
    · by_cases hnil : after = []
      · exact ⟨[], by rw [← hafter, hnil, List.append_nil, List.append_nil]⟩
      · refine absurd ⟨entry, hentry, p, after, hafter.symm, hp, hnil, List.suffix_refl p, ?_⟩ h
        rw [← hafter] at hname
        exact (List.prefix_append_right_inj p).1 hname
  rw [name?, name?, List.find?_congr hsame]

/-- A name at the front of the text that ends within its first part is the name at the front of that. -/
theorem name?_of_append (h : name? (p ++ s) = some (k, n)) (hn : n ≤ p.length) :
    name? p = some (k, n) := by
  obtain ⟨entry, hfind, heq⟩ := Option.map_eq_some_iff.1 h
  obtain ⟨hfront, before, after, hnames, hbefore⟩ := List.find?_eq_some_iff_append.1 hfind
  refine Option.map_eq_some_iff.2 ⟨entry, List.find?_eq_some_iff_append.2
    ⟨?_, before, after, hnames, fun other hother => ?_⟩, heq⟩
  · rw [List.isPrefixOf_iff_prefix] at hfront ⊢
    have hlength : entry.1.length ≤ p.length := by
      rw [(Prod.mk.inj heq).2]
      exact hn
    exact List.prefix_of_prefix_length_le hfront (List.prefix_append p s) hlength
  · have hnot := hbefore other hother
    rw [Bool.not_eq_true', ← Bool.not_eq_true, List.isPrefixOf_iff_prefix] at hnot ⊢
    exact fun hpre => hnot (hpre.trans (List.prefix_append p s))

theorem name?_eq_none_of_append (h : name? (p ++ s) = none) : name? p = none := by
  rw [name?, Option.map_eq_none_iff, List.find?_eq_none] at h ⊢
  intro entry hentry hfront
  rw [List.isPrefixOf_iff_prefix] at hfront
  exact h entry hentry (List.isPrefixOf_iff_prefix.2 (hfront.trans (List.prefix_append p s)))

end Lexicon

namespace Expression

variable {e e' : Expression} {p s text rest : List Char}

/-! Cutting the text. -/

/-- A word of the first part of the text is a word of the text. -/
theorem Word.append (h : Word e p e' rest) (hcut : ¬ Lexicon.Straddles p s) :
    Word e (p ++ s) e' (rest ++ s) := by
  cases h with
  | blank hc => exact .blank hc
  | name hc hname hadd =>
    have hle := Lexicon.length_le_of_name? hname
    rw [← List.drop_append_of_le_length hle]
    exact .name hc ((Lexicon.name?_append (List.cons_ne_nil _ _) hcut).trans hname) hadd
  | char hc hname hk hadd =>
    exact .char hc ((Lexicon.name?_append (List.cons_ne_nil _ _) hcut).trans hname) hk hadd

/-- A word of the text that ends within its first part is a word of that part. -/
theorem Word.of_append (h : Word e (p ++ s) e' (rest ++ s)) : Word e p e' rest := by
  generalize htext : p ++ s = text at h
  generalize hrest : rest ++ s = text' at h
  have hlt := h.length_lt
  cases p with
  | nil =>
    subst htext hrest
    rw [List.length_append, List.nil_append] at hlt
    omega
  | cons c cs =>
    subst htext
    rw [List.cons_append] at h
    cases h with
    | blank hc =>
      obtain rfl := List.append_cancel_right hrest
      exact .blank hc
    | @name _ _ _ k length hc hname hadd =>
      -- the name is no longer than the first part, since the rest is at least what follows that
      have hle : length ≤ (c :: cs).length := by
        have hlength := congrArg List.length hrest
        rw [List.length_drop, ← List.cons_append, List.length_append, List.length_append] at hlength
        have hname' := Lexicon.length_le_of_name? hname
        rw [← List.cons_append, List.length_append] at hname'
        omega
      rw [← List.cons_append, List.drop_append_of_le_length hle] at hrest
      obtain rfl := List.append_cancel_right hrest
      exact .name hc (Lexicon.name?_of_append hname hle) hadd
    | char hc hname hk hadd =>
      obtain rfl := List.append_cancel_right hrest
      exact .char hc (Lexicon.name?_eq_none_of_append hname) hk hadd

/-- Words that make up the first part of the text are words of the text. -/
theorem Words.append (h : Words e p e' rest) (hcut : ¬ Lexicon.Straddles p s) :
    Words e (p ++ s) e' (rest ++ s) := by
  induction h with
  | nil => exact .nil
  | cons hword _ ih =>
    obtain ⟨word, -, rfl⟩ := hword.exists_eq
    exact .cons (hword.append hcut) (ih fun h => hcut (h.of_suffix (List.suffix_append _ _)))

/-- The words before the rest of a text are words of what stands before it. -/
theorem Words.exists_eq (h : Words e text e' rest) : ∃ p, text = p ++ rest ∧ Words e p e' [] := by
  induction h with
  | nil => exact ⟨[], rfl, .nil⟩
  | cons hword _ ih =>
    obtain ⟨p, rfl, hwords⟩ := ih
    obtain ⟨word, -, rfl⟩ := hword.exists_eq
    refine ⟨word ++ p, (List.append_assoc _ _ _).symm, .cons ?_ hwords⟩
    rw [← List.append_assoc] at hword
    exact hword.of_append

theorem words_of_isBlank {blanks : List Char} (h : ∀ c ∈ blanks, Text.isBlank c = true) :
    Words e (blanks ++ s) e s := by
  induction blanks with
  | nil => exact .nil
  | cons c cs ih =>
    rw [List.forall_mem_cons] at h
    exact .cons (.blank h.1) (ih h.2)

theorem exists_of_type (h : e.type text = (e', rest)) :
    (∃ p, text = p ++ rest ∧ e.type p = (e', [])) ∧ e'.type rest = (e', rest) := by
  obtain ⟨hwords, hno⟩ := type_eq_iff.1 h
  obtain ⟨p, rfl, hp⟩ := hwords.exists_eq
  have hwhole : e.type p = (e', []) := type_eq_iff.2 ⟨hp, fun _ _ => not_word_nil⟩
  exact ⟨⟨p, rfl, hwhole⟩, type_eq_iff.2 ⟨.nil, hno⟩⟩

theorem type_append (h : e.type p = (e', [])) (hcut : ¬ Lexicon.Straddles p s) :
    e.type (p ++ s) = e'.type s :=
  type_of_words ((type_eq_iff.1 h).1.append hcut)

end Expression

namespace Calculator

variable {c c' : Calculator} {text r p s blanks : String} {buffer : Expression} {rest : List Char}

theorem type_of_nil (h : c.buffer.type text.toList = (buffer, [])) :
    c.type text = (none, { c with buffer }) := by
  rw [type, h]
  rfl

theorem type_of_ne_nil (h : c.buffer.type text.toList = (buffer, rest)) (hrest : rest ≠ []) :
    c.type text = (some (String.ofList rest), { c with buffer }) := by
  rw [type, h]
  dsimp only
  rw [List.isEmpty_eq_false_iff.2 hrest, if_neg Bool.false_ne_true]

theorem exists_of_type (h : c.type text = (some r, c')) :
    ∃ p, text = p ++ r ∧ c.type p = (none, c') ∧ c'.type r = (some r, c') := by
  rcases hfeed : c.buffer.type text.toList with ⟨buffer, rest⟩
  obtain ⟨⟨p, htext, hp⟩, hagain⟩ := Expression.exists_of_type hfeed
  by_cases hrest : rest = []
  · subst hrest
    rw [type_of_nil hfeed] at h
    cases h
  · rw [type_of_ne_nil hfeed hrest] at h
    cases h
    refine ⟨String.ofList p, ?_, type_of_nil ?_, type_of_ne_nil ?_ hrest⟩
    · rw [← String.toList_inj, htext, String.toList_append, String.toList_ofList,
        String.toList_ofList]
    · rwa [String.toList_ofList]
    · rwa [String.toList_ofList]

theorem type_append (h : c.type p = (none, c')) (hblanks : ∀ a ∈ blanks.toList, Text.isBlank a = true)
    (hcut : blanks = "" → ¬ Lexicon.Straddles p.toList s.toList) :
    c.type (p ++ blanks ++ s) = c'.type s := by
  rcases hfeed : c.buffer.type p.toList with ⟨buffer, rest⟩
  by_cases hrest : rest = []
  · subst hrest
    rw [type_of_nil hfeed] at h
    cases h
    have hcut' : ¬ Lexicon.Straddles p.toList (blanks.toList ++ s.toList) :=
      Lexicon.not_straddles_append hblanks fun hnil => hcut (String.toList_eq_nil_iff.1 hnil)
    have hbuffer : c.buffer.type (p ++ blanks ++ s).toList = buffer.type s.toList := by
      rw [String.toList_append, String.toList_append, List.append_assoc,
        Expression.type_append hfeed hcut']
      exact Expression.type_of_words (Expression.words_of_isBlank hblanks)
    rw [type, type, hbuffer]
  · rw [type_of_ne_nil hfeed hrest] at h
    cases h

/-- Text that is left over was left over at a place of the text: before it the whole text is typed, to
the same buffer, and there it is left over again. And text that is typed whole can be typed before the
rest, where no name goes on over the cut or blanks are put into it. -/
theorem type_resumes (c : Calculator) :
    (∀ text r c', c.type text = (some r, c') →
      ∃ p, text = p ++ r ∧ c.type p = (none, c') ∧ c'.type r = (some r, c')) ∧
    ∀ p s blanks c', c.type p = (none, c') → (∀ a ∈ blanks.toList, Text.isBlank a = true) →
      (blanks = "" → ¬ Lexicon.Straddles p.toList s.toList) →
      c.type (p ++ blanks ++ s) = c'.type s :=
  ⟨fun _ _ _ h => exists_of_type h, fun _ _ _ _ h hblanks hcut => type_append h hblanks hcut⟩

/-- A second point is left over, wherever the blanks before it are; and a blank after `e` keeps the name
of the exponential function from being read over the cut, where a sign needs none. -/
theorem type_resumes_at_points_and_blanks :
    let c : Calculator := ⟨false, .null, [], 0, Reals.Memory.empty⟩
    let number : Calculator := { c with buffer := [.literal ⟨"2", true, "5"⟩] }
    let base : Calculator := { c with buffer := [.operator (.constant .e)] }
    (∃ p, "2 .5 .1" = p ++ ".1" ∧ c.type p = (none, number) ∧
        number.type ".1" = (some ".1", number)) ∧
      c.type ("e" ++ " " ++ "xp(2") = base.type "xp(2" ∧ base.type "xp(2" = (some "xp(2", base) ∧
      c.type ("e" ++ "" ++ "*2") = base.type "*2" := by
  intro c number base
  have hnumber : c.type "2 .5 .1" = (some ".1", number) :=
    type_of_ne_nil (Expression.type_eq_iff.2
      ⟨.cons (.char (by decide +kernel) (by decide +kernel) rfl rfl) <|
        .cons (.blank (by decide +kernel)) <|
        .cons (.char (by decide +kernel) (by decide +kernel) rfl rfl) <|
        .cons (.char (by decide +kernel) (by decide +kernel) rfl rfl) <|
        .cons (.blank (by decide +kernel)) .nil,
      fun _ _ => Expression.not_word_of_refused (by decide +kernel) (by decide +kernel) rfl rfl⟩)
      (List.cons_ne_nil _ _)
  have hbase : c.type "e" = (none, base) :=
    type_of_nil (Expression.type_eq_iff.2
      ⟨.cons (.char (by decide +kernel) (by decide +kernel) rfl rfl) .nil,
        fun _ _ => Expression.not_word_nil⟩)
  have hname : base.type "xp(2" = (some "xp(2", base) :=
    type_of_ne_nil (Expression.type_eq_iff.2 ⟨.nil, fun _ _ =>
      Expression.not_word_of_unknown (by decide +kernel) (by decide +kernel) rfl⟩)
      (List.cons_ne_nil _ _)
  have hblank : ∀ a ∈ " ".toList, Text.isBlank a = true := List.all_eq_true.1 (by decide +kernel)
  refine ⟨(type_resumes c).1 "2 .5 .1" ".1" number hnumber,
    (type_resumes c).2 "e" "xp(2" " " base hbase hblank fun hnil => absurd hnil (by decide), hname,
    (type_resumes c).2 "e" "*2" "" base hbase (by simp) fun _ => ?_⟩
  refine Lexicon.not_straddles_of_not_mem (c := '*') ?_
  decide +kernel

end Calculator

end Reckoner
