import Reckoner.Calculator
import Reckoner.Proofs.Outcome
import Reckoner.Proofs.Savable
/-!
Runs of a calculator. Whatever is pressed, typed, taken back or collapsed, the buffer stays a thread of
well-formed numbers, operators and collapsed tokens (`made_run`). The memory stays sound, and the
collapsed tokens are what collapsing makes (`kept_run`).
-/
namespace Reckoner

open Reals

/-- What is done to a calculator between saves. -/
inductive Action where
  | press (k : Key)
  | type (text : String)
  | delete
  | clear
  | setDegrees (files : Files) (degrees : Bool)
  | collapse

/-- The calculator after an action, which may be refused or fail. -/
def Calculator.act (a : Arithmetic) (c : Calculator) : Action → Calculator
  | .press k => (c.press k).2
  | .type text => (c.type text).2
  | .delete => c.delete
  | .clear => c.clear
  | .setDegrees files degrees => (c.setDegrees files degrees).2
  | .collapse => (c.collapse a).2

/-- The calculator after some actions. -/
def Calculator.run (a : Arithmetic) (c : Calculator) (actions : List Action) : Calculator :=
  actions.foldl (act a) c

/-! Numbers stay well formed. -/

namespace Literal

variable {l : Literal} {k : Key}

theorem wellFormed_empty : empty.WellFormed := by
  refine ⟨?_, ?_, fun _ => rfl⟩ <;> exact fun c hc => by cases hc

theorem isDigit_of_mem_digitText {d : Fin 10} {c : Char}
    (h : c ∈ (digitText (.digit d)).toList) : c.isDigit :=
  Text.isDigit_of_mem_toString h

theorem WellFormed.type (h : l.WellFormed) (hk : k = .point ∨ ∃ d, k = .digit d) :
    (l.type k).2.WellFormed := by
  unfold Literal.type
  rcases hk with rfl | ⟨d, rfl⟩
  · rw [if_pos rfl]
    split
    · exact h
    · exact ⟨h.whole, h.fraction, fun hp => by cases hp⟩
  · rw [if_neg (by simp)]
    split <;> rename_i hpoint
    · refine ⟨h.whole, fun c hc => ?_, fun hp => absurd hp (by simp [hpoint])⟩
      rw [String.toList_append, List.mem_append] at hc
      exact hc.elim (h.fraction c) isDigit_of_mem_digitText
    · refine ⟨fun c hc => ?_, h.fraction, h.point⟩
      rw [String.toList_append, List.mem_append] at hc
      exact hc.elim (h.whole c) isDigit_of_mem_digitText

theorem mem_of_mem_dropLast {s : String} {c : Char} (h : c ∈ (dropLast s).toList) :
    c ∈ s.toList := by
  rw [dropLast, String.toList_ofList] at h
  exact List.dropLast_subset _ h

theorem WellFormed.delete (h : l.WellFormed) : l.delete.WellFormed := by
  unfold Literal.delete
  split
  · rename_i hfraction
    refine ⟨h.whole, fun c hc => h.fraction c (mem_of_mem_dropLast hc), fun hp => ?_⟩
    simp [h.point hp] at hfraction
  · rename_i hfraction
    split
    · exact ⟨h.whole, h.fraction, fun _ => by simpa using hfraction⟩
    · exact ⟨fun c hc => h.whole c (mem_of_mem_dropLast hc), h.fraction, h.point⟩

end Literal

/-! Expressions stay composed and threaded. -/

theorem Expression.within_subset {e e' : Expression} (h : e' ⊆ e) : e'.within ⊆ e.within := by
  intro t ht
  obtain ⟨s, hs, hst⟩ := mem_within_iff.1 ht
  exact mem_within_iff.2 ⟨s, h hs, hst⟩

theorem Expression.Threaded.of_initial {e e' : Expression} (h : e.Threaded) (hp : e' <+: e) :
    e'.Threaded := by
  cases e' with
  | nil => trivial
  | cons t ts =>
    obtain ⟨rest, rfl⟩ := hp
    exact ⟨h.1, fun s hs => h.2 s (List.mem_append_left _ hs)⟩

theorem Expression.Threaded.append {e e' : Expression} (h : e.Threaded)
    (h' : ∀ s ∈ e', s.identity? = none) : (e ++ e').Threaded := by
  cases e with
  | nil =>
    cases e' with
    | nil => trivial
    | cons t ts =>
      have ht := h' t List.mem_cons_self
      refine ⟨?_, fun s hs => h' s (List.mem_cons_of_mem _ hs)⟩
      cases t with
      | collapsed => cases ht
      | _ => trivial
  | cons t ts => exact ⟨h.1, List.forall_mem_append.2 ⟨h.2, h'⟩⟩

/-- A property of tokens that operators have, and of numbers the well-formed ones. -/
structure OfTyped (P : Token → Prop) : Prop where
  operator : ∀ k, P (.operator k)
  number : ∀ l, P (.literal l) ↔ l.WellFormed

/-- A thread of tokens that all have a property, at every depth. -/
structure Made (P : Token → Prop) (e : Expression) : Prop where
  tokens : ∀ t ∈ e.within, P t
  threaded : e.Threaded

namespace Made

variable {P : Token → Prop} {e e' : Expression} {k : Key}

theorem nil : Made P [] := ⟨fun _ ht => absurd ht List.not_mem_nil, trivial⟩

theorem of_initial (h : Made P e) (hp : e' <+: e) : Made P e' :=
  ⟨fun t ht => h.tokens t (Expression.within_subset hp.subset ht), h.threaded.of_initial hp⟩

/-- A token may follow that is not a collapsed one. -/
theorem concat (h : Made P e) {t : Token} (ht : P t) (hid : t.identity? = none) :
    Made P (e ++ [t]) := by
  refine ⟨fun s hs => ?_, h.threaded.append (by simpa using hid)⟩
  rw [Expression.within_append, List.mem_append] at hs
  rcases hs with hs | hs
  · exact h.tokens s hs
  · simp only [Expression.within, Token.within_eq_nil hid, List.append_nil,
      List.mem_singleton] at hs
    exact hs ▸ ht

theorem collapsed (h : Made P e) {name : ℕ} {value : Dual} {context : Context} {short : String}
    (ht : P (.collapsed name value e context short)) :
    Made P [.collapsed name value e context short] := by
  refine ⟨fun t hmem => ?_, h.threaded, fun s hs => by cases hs⟩
  simp only [Expression.within, Token.within, List.append_nil, List.mem_cons] at hmem
  rcases hmem with rfl | hmem
  · exact ht
  · exact h.tokens t hmem

variable (hP : OfTyped P)

include hP

theorem operator (h : Made P e) (k : Key) : Made P (e ++ [.operator k]) :=
  h.concat (hP.operator k) rfl

theorem number (h : Made P e) {l : Literal} (hl : l.WellFormed) : Made P (e ++ [.literal l]) :=
  h.concat ((hP.number l).2 hl) rfl

theorem last (h : Made P e) {l : Literal} (hl : e.getLast? = some (.literal l)) : l.WellFormed :=
  (hP.number l).1 (h.tokens _ (Expression.mem_within_of_mem (List.mem_of_getLast? hl)))

theorem addToNumber (h : Made P e) (hk : k = .point ∨ ∃ d, k = .digit d) :
    Made P (e.addToNumber k).2 := by
  have hnew := h.number hP (Literal.wellFormed_empty.type hk)
  unfold Expression.addToNumber
  split
  · rename_i l hlast
    exact (h.of_initial (List.dropLast_prefix e)).number hP ((h.last hP hlast).type hk)
  · split
    · exact h
    · exact hnew
  · exact hnew

theorem add (h : Made P e) (k : Key) : Made P (e.add k).2 := by
  unfold Expression.add
  split
  · exact h.addToNumber hP (.inr ⟨_, rfl⟩)
  · exact h.addToNumber hP (.inl rfl)
  · split
    · exact h
    · exact h.operator hP _
  · exact h.operator hP _

theorem delete (h : Made P e) : Made P e.delete := by
  unfold Expression.delete
  have hinit := h.of_initial (List.dropLast_prefix e)
  split
  · rename_i l hlast
    split
    · exact hinit
    · exact hinit.number hP (h.last hP hlast).delete
  · exact hinit

theorem feed (h : Made P e) (words : ℕ) (text : List Char) :
    Made P (Expression.type.feed words e text).1 := by
  fun_induction Expression.type.feed words e text with
  | case3 words e c text hblank ih => exact ih h
  | case4 words e c text hblank k length hname e' hadd =>
    have he' := h.add hP k
    rwa [hadd] at he'
  | case5 words e c text hblank k length hname e' hadd e'' ih =>
    have he' := h.add hP k
    rw [hadd] at he'
    refine ih ?_
    change Made P (if k = .root then (e'.add .opening).2 else e')
    split
    · exact he'.add hP .opening
    · exact he'
  | case7 words e c text hblank hname k hkey e' hadd =>
    have he' := h.add hP k
    rwa [hadd] at he'
  | case8 words e c text hblank hname k hkey e' hadd ih =>
    have he' := h.add hP k
    rw [hadd] at he'
    exact ih he'
  | _ => exact h

end Made

namespace Arithmetic

variable {a : Arithmetic} {names : ℕ → Term} {x : Dual}

theorem renderTo_keeps (hk : a.kernel.Accurate) (hx : x.real.Consistent names) (digits : Json) :
    (a.renderTo digits x).Keeps names := by
  unfold renderTo
  refine (Recall.Keeps.ofExcept _).bind fun count => (Recall.Keeps.ofExcept _).bind fun bits => ?_
  have happroximate : (x.real.approximate a.kernel bits).Keeps names := fun m hm =>
    Term.ask_sound hm hx fun g node => Query.Keeps.approximateBits hk g node bits
  exact (happroximate.mapError _).bind fun _ => .ofExcept _

theorem shortText_keeps (hk : a.kernel.Accurate) (hx : x.real.Consistent names) (digits : Json) :
    (a.shortText digits x).Keeps names := by
  have hrender := renderTo_keeps hk hx digits
  unfold shortText
  split
  · refine (Recall.Keeps.ofExcept _).bind fun text => (Recall.Keeps.ofExcept _).bind fun count => ?_
    generalize count.admits _ = inFull
    cases inFull with
    | true => exact .pure _
    | false => exact hrender
  · exact hrender

end Arithmetic

namespace Calculator

variable {a : Arithmetic} {c : Calculator} {P : Token → Prop} {files : Files} {degrees : Option Bool}
  {next : ℕ} {m : Memory}

theorem start_eq_ok (h : start files degrees next m = .ok c) :
    c.buffer = [] ∧ c.names = next ∧ c.memory = m := by
  unfold start at h
  split at h <;>
  · obtain ⟨b, -, h⟩ := bind_eq_ok_iff.1 h
    obtain ⟨digits, -, h⟩ := bind_eq_ok_iff.1 h
    obtain rfl := Except.ok.inj h
    exact ⟨rfl, rfl, rfl⟩

/-- Collapsing leaves the buffer, or puts a token of its value in its place. -/
theorem buffer_collapse (a : Arithmetic) (c : Calculator) : (c.collapse a).2.buffer = c.buffer ∨
    ∃ x short, (c.evaluate a true).1 = .ok x ∧
      (c.collapse a).2.buffer = c.buffer.abbreviate c.names x c.degrees short := by
  unfold collapse
  split
  · exact .inl rfl
  · have hevaluate : c.evaluate a true =
        ((c.evaluate a true).1, { c with memory := (c.evaluate a true).2.memory }) := rfl
    rcases hx : (c.evaluate a true).1 with e | x
    · rw [hevaluate, hx]
      exact .inl rfl
    · rw [hevaluate, hx]
      dsimp only [name, shortText, recalling]
      rcases a.shortText c.shortDigits (x.keptAs c.names) (c.evaluate a true).2.memory with
        ⟨e | short, m⟩
      · exact .inl rfl
      · exact .inr ⟨x, short, rfl, rfl⟩

theorem made_act (hP : OfTyped P) (hcollapsed : ∀ name value source context short,
      P (.collapsed name value source context short)) (h : Made P c.buffer) (action : Action) :
    Made P (c.act a action).buffer := by
  cases action with
  | press k => exact h.add hP k
  | type text => exact h.feed hP _ _
  | delete => exact h.delete hP
  | clear => exact .nil
  | setDegrees files degrees => exact h
  | collapse =>
    rcases buffer_collapse a c with hsame | ⟨x, short, -, hbuffer⟩
    · exact hsame ▸ h
    · exact hbuffer ▸ h.collapsed (hcollapsed ..)

/-- Any run from an empty buffer, whatever evaluation comes to. -/
theorem made_run (hP : OfTyped P) (hcollapsed : ∀ name value source context short,
      P (.collapsed name value source context short)) (h : start files degrees next m = .ok c)
    (actions : List Action) : Made P (c.run a actions).buffer := by
  have hstart : Made P c.buffer := (start_eq_ok h).1 ▸ .nil
  clear h
  induction actions generalizing c with
  | nil => exact hstart
  | cons action actions ih => exact ih (made_act hP hcollapsed hstart action)

/-! The memory, and the values of collapsed tokens. -/

variable {names : ℕ → Term}

/-- The memory is sound, and the buffer is what collapsing makes, where the names that are taken stand
for these numbers. -/
structure Kept (a : Arithmetic) (names : ℕ → Term) (c : Calculator) : Prop where
  sound : c.memory.SoundBelow c.names names
  made : ∀ names', (∀ n < c.names, names' n = names n) →
    Made (Codec.ComposedToken a names') c.buffer

theorem ofTyped_composedToken (a : Arithmetic) (names : ℕ → Term) :
    OfTyped (Codec.ComposedToken a names) :=
  ⟨fun _ => trivial, fun _ => Iff.rfl⟩

theorem Kept.edit {c' : Calculator} (h : c.Kept a names) (hmemory : c'.memory = c.memory)
    (hnames : c'.names = c.names)
    (hbuffer : ∀ P, OfTyped P → Made P c.buffer → Made P c'.buffer) : c'.Kept a names := by
  constructor
  · rw [hmemory, hnames]
    exact h.sound
  · rw [hnames]
    exact fun names' hbelow => hbuffer _ (ofTyped_composedToken a names') (h.made names' hbelow)

/-- Evaluating the buffer. -/
theorem kept_evaluate (hk : a.kernel.Accurate) (h : c.Kept a names) (required : Bool) :
    (c.evaluate a required).2.Kept a names ∧ ∀ v, (c.evaluate a required).1 = .ok v →
      ∀ names', (∀ n < c.names, names' n = names n) → v.real.Consistent names' := by
  have hkeeps : ∀ names', (∀ n < c.names, names' n = names n) →
      (c.evaluate a required).2.memory.Sound names' ∧
        ∀ v, (c.evaluate a required).1 = .ok v → v.real.Consistent names' := by
    intro names' hnames
    exact a.evaluate_keeps c.degrees required hk (h.sound names' hnames) fun t ht =>
      ((h.made names' hnames).tokens t (Expression.mem_within_of_mem ht)).consistent
  exact ⟨⟨fun names' hnames => (hkeeps names' hnames).1, h.made⟩,
    fun v hv names' hnames => (hkeeps names' hnames).2 v hv⟩

/-- Collapsing gives the value a name that stands for nothing yet. -/
theorem kept_collapse (hk : a.kernel.Accurate) (h : c.Kept a names) :
    ∃ names', (c.collapse a).2.Kept a names' := by
  obtain ⟨hevaluated, hconsistent⟩ := kept_evaluate hk h true
  unfold collapse
  split
  · exact ⟨names, h⟩
  · have hevaluate : c.evaluate a true =
        ((c.evaluate a true).1, { c with memory := (c.evaluate a true).2.memory }) := rfl
    rcases hx : (c.evaluate a true).1 with e | x
    · rw [hevaluate, hx]
      exact ⟨names, hevaluated⟩
    · let names' : ℕ → Term := Function.update names c.names x.real
      have hnames : ∀ names'', (∀ n < c.names + 1, names'' n = names' n) →
          (∀ n < c.names, names'' n = names n) ∧ (x.keptAs c.names).real.Consistent names'' :=
        fun names'' => Dual.consistent_of_eq_update (hconsistent x hx)
      have hsound : ∀ names'', (∀ n < c.names + 1, names'' n = names' n) →
          (a.shortText c.shortDigits (x.keptAs c.names) (c.evaluate a true).2.memory).2.Sound
            names'' := fun names'' hnames'' =>
        Arithmetic.shortText_keeps hk (hnames names'' hnames'').2 c.shortDigits _
          (hevaluated.sound names'' (hnames names'' hnames'').1)
      rw [hevaluate, hx]
      dsimp only [name, shortText, recalling]
      rcases hshort : a.shortText c.shortDigits (x.keptAs c.names) (c.evaluate a true).2.memory with
        ⟨e | short, m⟩ <;> rw [hshort] at hsound
      · exact ⟨names', hsound, fun names'' hnames'' => h.made names'' (hnames names'' hnames'').1⟩
      · refine ⟨names', hsound, fun names'' hnames'' => ?_⟩
        obtain ⟨hbelow, hvalue⟩ := hnames names'' hnames''
        exact (h.made names'' hbelow).collapsed
          ⟨hvalue, rfl, c.memory, x, h.sound names'' hbelow, hx, rfl⟩

/-- One action. -/
theorem kept_act (hk : a.kernel.Accurate) (h : c.Kept a names) (action : Action) :
    ∃ names', (c.act a action).Kept a names' := by
  cases action with
  | press k => exact ⟨names, h.edit rfl rfl fun P hP hmade => hmade.add hP k⟩
  | type text => exact ⟨names, h.edit rfl rfl fun P hP hmade => hmade.feed hP _ _⟩
  | delete => exact ⟨names, h.edit rfl rfl fun P hP hmade => hmade.delete hP⟩
  | clear => exact ⟨names, h.edit rfl rfl fun P hP hmade => .nil⟩
  | setDegrees files degrees => exact ⟨names, h.edit rfl rfl fun P hP hmade => hmade⟩
  | collapse => exact kept_collapse hk h

/-- Any run from an empty buffer and a sound memory. -/
theorem kept_run (hk : a.kernel.Accurate) (hm : m.SoundBelow next names)
    (h : start files degrees next m = .ok c) (actions : List Action) :
    ∃ names', (c.run a actions).Kept a names' := by
  have hstart : c.Kept a names := by
    obtain ⟨hbuffer, rfl, rfl⟩ := start_eq_ok h
    exact ⟨hm, fun _ _ => hbuffer ▸ .nil⟩
  clear h hm
  induction actions generalizing c names with
  | nil => exact ⟨names, hstart⟩
  | cons action actions ih =>
    obtain ⟨names', hact⟩ := kept_act hk hstart action
    exact ih hact

end Calculator

end Reckoner
