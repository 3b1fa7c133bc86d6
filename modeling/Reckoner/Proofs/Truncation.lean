import Reckoner.Proofs.Encoding
/-!
Data that are cut off or go on. Whatever is read of some data is read of the bytes at their start that
are taken, whatever comes after them, and fewer of them are refused as truncated wherever the cut is.
So it is from the same memory; and from every sound memory the same is read but for names, if the
factorials inside the tokens are settled (`loads_of_part`).
-/
namespace Reckoner

open Reals

/-! Tokens whose names are moved. -/

/-- New names for the names, and none for the constants. -/
def Reals.Identity.moved (f : ℕ → ℕ) : Identity → ℕ
  | .name n => f n
  | _ => 0

mutual

/-- The token with every name, at every depth, moved. -/
def Token.move (f : ℕ → ℕ) : Token → Token
  | .collapsed name value source context short =>
    .collapsed (f name) (value.rename (Identity.moved f)) (Expression.move f source) context short
  | t => t

/-- The expression with every name, at every depth, moved. -/
def Expression.move (f : ℕ → ℕ) : Expression → Expression
  | [] => []
  | t :: ts => t.move f :: Expression.move f ts

end

section

variable (f : ℕ → ℕ)

theorem Expression.move_eq_map (e : Expression) : e.move f = e.map (Token.move f) := by
  induction e with
  | nil => rfl
  | cons t e ih => simp [move, ih]

@[simp] theorem Expression.length_move (e : Expression) : (e.move f).length = e.length := by
  simp [move_eq_map]

theorem Token.move_of_identity? {t : Token} (h : t.identity? = none) : t.move f = t := by
  cases t with
  | collapsed => cases h
  | _ => rfl

theorem Token.name?_move (t : Token) : (t.move f).name? = t.name?.map f := by
  cases t <;> rfl

mutual

theorem Token.within_move : ∀ t : Token, (t.move f).within = t.within.map (Token.move f)
  | .literal _ | .operator _ => rfl
  | .collapsed _ _ source _ _ => Expression.within_move source

theorem Expression.within_move : ∀ e : Expression, (e.move f).within = e.within.map (Token.move f)
  | [] => rfl
  | t :: e => by
    simp only [Expression.move, Expression.within, Token.within_move t, Expression.within_move e,
      List.map_cons, List.map_append]

end

mutual

theorem Token.anonymous_move : ∀ t : Token,
    (t.move f).rename (fun _ => 0) = t.rename fun _ => 0
  | .literal _ | .operator _ => rfl
  | .collapsed name value source _ _ => by
    simp only [Token.move, Token.rename, Dual.rename_rename, Expression.anonymous_move source]

/-- Names that are moved make no difference where there are none. -/
theorem Expression.anonymous_move : ∀ e : Expression,
    (e.move f).rename (fun _ => 0) = e.rename fun _ => 0
  | [] => rfl
  | t :: e => by
    simp only [Expression.move, Expression.rename, Token.anonymous_move t,
      Expression.anonymous_move e]

end

theorem Dual.keptAs_move (name : ℕ) (x : Dual) :
    (x.rename (Identity.moved f)).keptAs (f name) = (x.keptAs name).rename (Identity.moved f) := by
  have hid : (x.rename (Identity.moved f)).real.identity? =
      x.real.identity?.map (Identity.rename (Identity.moved f)) :=
    x.real.identity?_rename _
  unfold keptAs
  rw [hid]
  cases x.real.identity? <;> rfl

theorem Grammar.sameRenamed_move (ts : List Token) :
    SameRenamed (Identity.moved f) ts (Expression.move f ts) := by
  rw [Expression.move_eq_map]
  exact sameRenamed_map (fun _ => rfl) (fun _ => rfl) (fun _ _ _ _ _ => ⟨_, _, rfl⟩) ts

end

/-- Whether two expressions are the same but for names: the same tokens at every depth, and of these the
same are one token. -/
structure Expression.SameButNames (e e' : Expression) : Prop where
  tokens : e'.anonymous = e.anonymous
  sharing : ∀ p ∈ e.within.zip e'.within, ∀ q ∈ e.within.zip e'.within,
    p.1.IsSame q.1 ↔ p.2.IsSame q.2

theorem Expression.sameButNames_move {f : ℕ → ℕ} (hf : f.Injective) (e : Expression) :
    e.SameButNames (e.move f) where
  tokens := e.anonymous_move f
  sharing := by
    rw [zip_within_of_map (e.within_move f)]
    intro p hp q hq
    obtain ⟨s, -, rfl⟩ := List.mem_map.1 hp
    obtain ⟨t, -, rfl⟩ := List.mem_map.1 hq
    simp only [Token.IsSame, Token.name?_move, Option.map_eq_some_iff]
    constructor
    · rintro ⟨n, hs, ht⟩
      exact ⟨f n, ⟨n, hs, rfl⟩, n, ht, rfl⟩
    · rintro ⟨_, ⟨n, hs, rfl⟩, n', ht, hn⟩
      exact ⟨n, hs, hf hn ▸ ht⟩

/-- Moves the names from `first` up to `last` to those from `first'` on, and all others further up. -/
def moveNames (first last first' n : ℕ) : ℕ :=
  if first ≤ n ∧ n < last then first' + (n - first) else first' + last + n

theorem moveNames_injective (first last first' : ℕ) : (moveNames first last first').Injective := by
  intro n m h
  unfold moveNames at h
  split at h <;> split at h <;> omega

theorem le_moveNames (first last first' n : ℕ) : first' ≤ moveNames first last first' n := by
  unfold moveNames
  split <;> omega

theorem moveNames_eq {first last first' n n' : ℕ} (hfirst : first ≤ n) (hlast : n < last)
    (h : n' + first = n + first') : moveNames first last first' n = n' := by
  rw [moveNames, if_pos ⟨hfirst, hlast⟩]
  omega

namespace Codec

/-- The factorials in the expression inside a token are settled. -/
def SteadyToken (a : Arithmetic) (names : ℕ → Term) : Token → Prop
  | .collapsed _ _ source context _ => Grammar.Steady (a.mode context.degrees) names source
  | _ => True

variable {a : Arithmetic} {depth : ℕ} {data : List UInt8} {s s' t : Knowledge} {ts : List Token}
  {f : ℕ → ℕ} {names names' : ℕ → Term} {first last first' : ℕ}

/-- What is known in two passes, the names of one of which are moved from `first` to `first'`, with sound
memories. -/
structure Follows (f : ℕ → ℕ) (first first' : ℕ) (names names' : ℕ → Term) (s t : Knowledge) : Prop where
  known : ∀ index, t.known.find? index = (s.known.find? index).map (Token.move f)
  moved : t.names + first = s.names + first'
  sound : s.memory.Sound names
  sound' : t.memory.Sound names'

/-- Both passes go on alike after a token that has been evaluated in both. -/
theorem Follows.register {s t : Knowledge} {memory memory' : Memory}
    (h : Follows f first first' names names' s t) (hsound : memory.Sound names)
    (hsound' : memory'.Sound names') (index : ℤ) (token : Token) :
    Follows f first first' names names' ⟨s.known.register index token, s.names + 1, memory⟩
      ⟨t.known.register index (token.move f), t.names + 1, memory'⟩ where
  known index' := by
    rw [Known.find?_register, Known.find?_register]
    split
    · rfl
    · exact h.known index'
  moved := by
    have hmoved := h.moved
    show t.names + 1 + first = s.names + 1 + first'
    omega
  sound := hsound
  sound' := hsound'

theorem Encodes.names_le (h : Encodes a depth data s ts s') : s.names ≤ s'.names := by
  induction h with
  | nil => exact Nat.le_refl _
  | plain _ _ _ ih | reference _ _ _ _ ih => exact ih
  | collapsed _ _ _ _ _ _ _ _ _ ihsource ih => exact ihsource.trans ((Nat.le_succ _).trans ih)

/-- The token that is made of the same expression in the other pass. -/
theorem move_newToken {name name' : ℕ} (hname : f name = name') (x : Dual) (source : Expression)
    (degrees : Bool) (short : String) :
    (Token.collapsed name (x.keptAs name) source ⟨degrees, source.length⟩ short).move f =
      .collapsed name' ((x.rename (Identity.moved f)).keptAs name') (source.move f)
        ⟨degrees, (source.move f).length⟩ short := by
  subst hname
  rw [Dual.keptAs_move, Expression.length_move]
  rfl

/-- The value of the expression inside a token in the other pass. -/
theorem exists_moved_value (hk : a.kernel.Accurate) {room : ℕ} {source : Expression} {degrees : Bool}
    {x : Dual} {m m' memory : Memory} (hσ : Renames (Identity.moved f) names names')
    (hm : m.Sound names) (hm' : m'.Sound names') (hsource : ∀ t ∈ source, t.Consistent names)
    (hsteady : Grammar.Steady (a.mode degrees) names source)
    (hvalue : Grammar.evaluateWithin (a.mode degrees) room source.length source m = (.ok x, memory)) :
    memory.Sound names ∧ ∃ memory' : Memory, memory'.Sound names' ∧
      Grammar.evaluateWithin (a.mode degrees) room (source.move f).length (source.move f) m' =
        (.ok (x.rename (Identity.moved f)), memory') := by
  have hk' : (a.mode degrees).kernel.Accurate := hk
  have hrange : Grammar.Steady (a.mode degrees) names (Grammar.range source.length source) := by
    have hall : Grammar.range source.length source = source := List.take_length
    rwa [hall]
  rw [Expression.length_move]
  exact ⟨(Grammar.evaluateWithin_keeps_of_ok hk' hm hsource hvalue).1,
    Grammar.evaluateWithin_rename hk' hσ hm hm' hsource (Grammar.sameRenamed_move f source) hrange
      (congrArg Prod.fst hvalue)⟩

theorem Encodes.move (hk : a.kernel.Accurate) (h : Encodes a depth data s ts s')
    (hσ : Renames (Identity.moved (moveNames first last first')) names names')
    (hfirst : first ≤ s.names) (hlast : s'.names ≤ last)
    (htokens : ∀ t ∈ Expression.within ts, t.Consistent names ∧ SteadyToken a names t)
    (hfollows : Follows (moveNames first last first') first first' names names' s t) :
    ∃ t', Encodes a depth data t (Expression.move (moveNames first last first') ts) t' ∧
      Follows (moveNames first last first') first first' names names' s' t' := by
  induction h generalizing t with
  | nil => exact ⟨t, .nil, hfollows⟩
  | plain hid ht _ ih =>
    obtain ⟨t', hencodes, hfollows'⟩ := ih hfirst hlast
      (fun u hu => htokens u (List.mem_cons_of_mem _ (List.mem_append_right _ hu))) hfollows
    rw [Expression.move, Token.move_of_identity? _ hid]
    exact ⟨t', .plain hid ht hencodes, hfollows'⟩
  | @reference _ _ _ _ index _ _ _ _ htag hindex ht _ ih =>
    obtain ⟨t', hencodes, hfollows'⟩ := ih hfirst hlast
      (fun u hu => htokens u (List.mem_cons_of_mem _ (List.mem_append_right _ hu))) hfollows
    have hfind := hfollows.known index
    rw [ht] at hfind
    exact ⟨t', .reference htag hindex hfind hencodes, hfollows'⟩
  | @collapsed _ _ _ _ _ _ _ _ index source degrees short x memory s s₁ s' ts htag hindex hnew hcount
      hinside hunit hvalue hshort hrest ihsource ih =>
    have hle : s₁.names + 1 ≤ s'.names := hrest.names_le
    have hle₁ := hinside.names_le
    have htoken := htokens _ List.mem_cons_self
    have hsource : ∀ u ∈ source.within, u.Consistent names ∧ SteadyToken a names u := fun u hu =>
      htokens u (List.mem_cons_of_mem _ (List.mem_append_left _ hu))
    obtain ⟨t₁, hencodes₁, hfollows₁⟩ := ihsource hfirst (by omega) hsource hfollows
    obtain ⟨hsound, memory', hsound', hvalue'⟩ := exists_moved_value hk hσ hfollows₁.sound
      hfollows₁.sound' (fun u hu => (hsource u (Expression.mem_within_of_mem hu)).1) htoken.2 hvalue
    have hname : moveNames first last first' s₁.names = t₁.names :=
      moveNames_eq (hfirst.trans hle₁) (by omega) hfollows₁.moved
    have hmove := move_newToken hname x source degrees short
    have hfind := hfollows.known index
    rw [hnew] at hfind
    rw [← Expression.length_move (moveNames first last first')] at hcount
    have hregistered := hfollows₁.register hsound hsound' index
      (.collapsed s₁.names (x.keptAs s₁.names) source ⟨degrees, source.length⟩ short)
    rw [hmove] at hregistered
    obtain ⟨t', hencodes, hfollows'⟩ := ih (by show first ≤ s₁.names + 1; omega) hlast
      (fun u hu => htokens u (List.mem_cons_of_mem _ (List.mem_append_right _ hu))) hregistered
    rw [Expression.move, hmove]
    exact ⟨t', .collapsed htag hindex hfind hcount hencodes₁ hunit hvalue' hshort hencodes, hfollows'⟩

/-- The factorials inside the tokens of an expression are settled, where the names stand for the numbers
in a memory and in the tokens. -/
def SettledInside (a : Arithmetic) (m : Memory) (e : Expression) : Prop :=
  ∃ names, m.Sound names ∧ ∀ t ∈ e.within, t.Consistent names ∧ SteadyToken a names t

/-- What bytes encode from one memory they encode, with the names moved, from every sound one. -/
theorem EncodesExpression.exists_moved (hk : a.kernel.Accurate) {m : Memory} {e : Expression}
    (h : EncodesExpression a data ⟨Known.empty, first, m⟩ e s') (hsettled : SettledInside a m e)
    {names₀ : ℕ → Term} {m' : Memory} (hm' : m'.SoundBelow first' names₀) :
    ∃ e' t', EncodesExpression a data ⟨Known.empty, first', m'⟩ e' t' ∧ e.SameButNames e' := by
  obtain ⟨count, bytes, rfl, hcount, hencodes⟩ := h
  obtain ⟨names, hm, htokens⟩ := hsettled
  obtain ⟨names', hnames', hσ⟩ := exists_renames (σ := Identity.moved (moveNames first s'.names first'))
    (moveNames_injective first s'.names first') (le_moveNames first s'.names first') names names₀
  obtain ⟨t', hmoved, -⟩ := hencodes.move (t := ⟨Known.empty, first', m'⟩) hk hσ (Nat.le_refl _)
    (Nat.le_refl _) htokens
    { known := fun _ => rfl
      moved := Nat.add_comm ..
      sound := hm
      sound' := hm' names' hnames' }
  rw [← Expression.length_move (moveNames first s'.names first')] at hcount
  exact ⟨_, t', ⟨count, bytes, rfl, hcount, hmoved⟩,
    e.sameButNames_move (moveNames_injective first s'.names first')⟩

/-! The names for which the tokens that are read are consistent. -/

/-- The tokens are consistent, whatever the names from `next` on stand for. -/
def ConsistentBelow (next : ℕ) (names : ℕ → Term) (e : Expression) : Prop :=
  ∀ names', (∀ n < next, names' n = names n) → ∀ t ∈ e.within, t.Consistent names'

theorem ConsistentBelow.mono {next next' : ℕ} {e : Expression} (h : ConsistentBelow next names e)
    (hle : next ≤ next') (hnames : ∀ n < next, names' n = names n) :
    ConsistentBelow next' names' e :=
  fun names'' hnames'' =>
    h names'' fun n hn => (hnames'' n (hn.trans_le hle)).trans (hnames n hn)

theorem ConsistentBelow.cons {next : ℕ} {u : Token} (hu : ConsistentBelow next names [u])
    (hts : ConsistentBelow next names ts) : ConsistentBelow next names (u :: ts) := by
  intro names' hnames' t ht
  simp only [ConsistentBelow, Expression.within, List.append_nil] at hu
  simp only [Expression.within, List.mem_cons, List.mem_append, ← or_assoc] at ht
  rcases ht with ht | ht
  · exact hu names' hnames' t (List.mem_cons.2 ht)
  · exact hts names' hnames' t ht

/-- The memory is sound and the known tokens are consistent, whatever the free names stand for. -/
structure Knowledge.SoundFor (names : ℕ → Term) (s : Knowledge) : Prop where
  memory : s.memory.SoundBelow s.names names
  known : ∀ index t, s.known.find? index = some t → ConsistentBelow s.names names [t]

/-- The name of a new token can stand for its value, where that is consistent whatever the free names
stand for. -/
theorem Knowledge.SoundFor.register (hs : s.SoundFor names) {memory : Memory} {x : Dual}
    {source : Expression}
    (hkeeps : ∀ names', (∀ n < s.names, names' n = names n) →
      memory.Sound names' ∧ x.real.Consistent names')
    (hsource : ConsistentBelow s.names names source) (index : ℤ) (degrees : Bool) (short : String) :
    let token : Token :=
      .collapsed s.names (x.keptAs s.names) source ⟨degrees, source.length⟩ short
    ∃ names', (∀ n < s.names, names' n = names n) ∧
      ConsistentBelow (s.names + 1) names' [token] ∧
      Knowledge.SoundFor names' ⟨s.known.register index token, s.names + 1, memory⟩ := by
  intro token
  let names₁ := Function.update names s.names x.real
  have hupdate : ∀ names', (∀ n < s.names + 1, names' n = names₁ n) →
      (∀ n < s.names, names' n = names n) ∧ (x.keptAs s.names).real.Consistent names' :=
    fun names' => Dual.consistent_of_eq_update fun names'' h => (hkeeps names'' h).2
  have hbelow : ∀ n < s.names, names₁ n = names n := (hupdate names₁ fun _ _ => rfl).1
  have htoken : ConsistentBelow (s.names + 1) names₁ [token] := by
    intro names' hnames' t ht
    obtain ⟨hnames, hconsistent⟩ := hupdate names' hnames'
    simp only [token, Expression.within, Token.within, List.append_nil, List.mem_cons] at ht
    rcases ht with rfl | ht
    · exact hconsistent
    · exact hsource names' hnames t ht
  refine ⟨names₁, hbelow, htoken, ?_⟩
  constructor
  · exact fun names' hnames' => (hkeeps names' (hupdate names' hnames').1).1
  · intro index' t hfind
    rw [Known.find?_register] at hfind
    split at hfind
    · obtain rfl := Option.some.inj hfind
      exact htoken
    · exact (hs.known index' t hfind).mono (Nat.le_succ _) hbelow

/-- The names that are taken while tokens are read can stand for the values of these. -/
theorem Encodes.exists_names (hk : a.kernel.Accurate) (h : Encodes a depth data s ts s')
    (hs : s.SoundFor names) :
    ∃ names', (∀ n < s.names, names' n = names n) ∧ s'.SoundFor names' ∧
      ConsistentBelow s'.names names' ts := by
  induction h generalizing names with
  | nil => exact ⟨names, fun _ _ => rfl, hs, fun _ _ t ht => by cases ht⟩
  | @plain _ _ _ _ _ t _ hid _ h ih =>
    obtain ⟨names', hnames', hs', hts⟩ := ih hs
    refine ⟨names', hnames', hs', .cons (fun _ _ u hu => ?_) hts⟩
    simp only [Expression.within, Token.within_eq_nil hid, List.append_nil, List.mem_singleton] at hu
    subst hu
    cases u with
    | collapsed => cases hid
    | _ => trivial
  | reference _ _ ht h ih =>
    obtain ⟨names', hnames', hs', hts⟩ := ih hs
    exact ⟨names', hnames', hs', ((hs.known _ _ ht).mono h.names_le hnames').cons hts⟩
  | @collapsed _ _ _ _ _ _ _ _ index source degrees short x memory s s₁ s' ts _ _ _ _ h₁ _ hvalue _ h
      ihsource ih =>
    obtain ⟨names₁, hnames₁, hs₁, hsource⟩ := ihsource hs
    have hk' : (a.mode degrees).kernel.Accurate := hk
    have hkeeps : ∀ names', (∀ n < s₁.names, names' n = names₁ n) →
        memory.Sound names' ∧ x.real.Consistent names' := fun names' hnames' =>
      Grammar.evaluateWithin_keeps_of_ok hk' (hs₁.memory names' hnames')
        (fun t ht => hsource names' hnames' t (Expression.mem_within_of_mem ht)) hvalue
    obtain ⟨names₂, hnames₂, htoken, hs₂⟩ := hs₁.register hkeeps hsource index degrees short
    obtain ⟨names', hnames', hs', hts⟩ := ih hs₂
    refine ⟨names', fun n hn => ?_, hs', (htoken.mono h.names_le hnames').cons hts⟩
    have hlt : n < s₁.names := hn.trans_le h₁.names_le
    rw [hnames' n (Nat.lt_succ_of_lt hlt), hnames₂ n hlt, hnames₁ n hn]

/-- What is read from a sound memory leaves a sound one, and there are names for which it is consistent.
-/
theorem EncodesExpression.exists_names (hk : a.kernel.Accurate) {e : Expression} {m : Memory}
    (h : EncodesExpression a data ⟨Known.empty, first, m⟩ e s') (hm : m.SoundBelow first names) :
    ∃ names', m.Sound names' ∧ s'.memory.SoundBelow s'.names names' ∧
      ∀ t ∈ e.within, t.Consistent names' := by
  obtain ⟨count, bytes, -, -, hencodes⟩ := h
  obtain ⟨names', hnames', hs', he⟩ :=
    hencodes.exists_names hk { memory := hm, known := fun index t ht => by cases ht }
  exact ⟨names', hm names' hnames', hs'.memory, he names' fun _ _ => rfl⟩

/-- The factorials are settled where there are none. -/
theorem settledInside_of_loads (hk : a.kernel.Accurate) {e : Expression} {m m' : Memory} {next next' : ℕ}
    (hm : m.SoundBelow next names) (h : loads a next m data = (.ok e, next', m'))
    (hfree : Token.operator (.suffix .factorial) ∉ e.within) : SettledInside a m e := by
  obtain ⟨taken, rest, s', -, -, hencodes, -⟩ := exists_of_decode exists_encodesExpression h
  obtain ⟨names', hm', -, he⟩ := hencodes.exists_names hk hm
  refine ⟨names', hm', fun t ht => ⟨he t ht, ?_⟩⟩
  cases t with
  | collapsed name value source context short =>
    exact Grammar.steady_of_not_mem fun hmem =>
      hfree (Expression.within_trans ht (Expression.mem_within_of_mem hmem))
  | _ => trivial

variable {α ρ : Type}

/-- Of some data `n` bytes are needed and enough: what is read of these is wanted, whatever follows them,
and fewer are refused as truncated. -/
structure ReadsPart (read : List UInt8 → Except Failure α × ρ) (data : List UInt8) (n : ℕ)
    (wanted : α → ρ → Prop) (refused : ρ → Prop) : Prop where
  le : n ≤ data.length
  enough : ∀ rest, ∃ x r, read (data.take n ++ rest) = (.ok x, r) ∧ wanted x r
  needed : ∀ k < n, ∃ r, read (data.take k) = (.error (.format .truncated), r) ∧ refused r

theorem ReadsPart.mono {read : List UInt8 → Except Failure α × ρ} {n : ℕ} {wanted wanted' : α → ρ → Prop}
    {refused : ρ → Prop} (h : ReadsPart read data n wanted refused)
    (hwanted : ∀ x r, wanted x r → wanted' x r) : ReadsPart read data n wanted' refused where
  le := h.le
  enough rest := by
    obtain ⟨x, r, hread, hr⟩ := h.enough rest
    exact ⟨x, r, hread, hwanted x r hr⟩
  needed := h.needed

theorem Takes.readsPart {d : Decoder α} {x : α} {m : Memory}
    (h : Takes d data ⟨Known.empty, first, m⟩ x s') (rest : List UInt8) :
    ReadsPart (Codec.decode d first m) (data ++ rest) data.length
      (fun y r => y = x ∧ r = (s'.names, s'.memory)) fun _ => True where
  le := by
    rw [List.length_append]
    exact Nat.le_add_right ..
  enough rest' := by
    rw [List.take_left]
    exact ⟨x, _, h.decode.1 rest', rfl, rfl⟩
  needed k hk := by
    rw [List.take_append_of_le_length hk.le]
    exact ⟨_, Prod.ext (h.decode.2 k hk) rfl, trivial⟩

end Codec

namespace Calculator

open Codec

variable {a : Arithmetic} {c c' : Calculator} {data : List UInt8} {n : ℕ}

theorem restore_eq_ok_iff : c.restore a data = (.ok (), c') ↔
    ∃ degrees e names m, decode (readState a) c.names c.memory data = (.ok (degrees, e), names, m) ∧
      c' = { c with degrees, buffer := e, names, memory := m } := by
  rw [← loadsState_eq]
  unfold restore
  rcases loadsState a c.names c.memory data with ⟨error | ⟨degrees, e⟩, names, m⟩
  · simp
  · simp [eq_comm]

/-- A calculator reads the state at the start of some data, and if there is too little it keeps its own.
-/
theorem readsPart_restore {wanted : Bool × Expression → ℕ × Memory → Prop}
    {wanted' : Unit → Calculator → Prop}
    (h : ReadsPart (decode (readState a) c.names c.memory) data n wanted fun _ => True)
    (hwanted : ∀ degrees e names m, wanted (degrees, e) (names, m) →
      wanted' () { c with degrees, buffer := e, names, memory := m }) :
    ReadsPart (fun data => c.restore a data) data n wanted'
      fun r => ∃ names m, r = { c with names, memory := m } where
  le := h.le
  enough rest := by
    obtain ⟨⟨degrees, e⟩, ⟨names, m⟩, hread, hr⟩ := h.enough rest
    exact ⟨(), _, restore_eq_ok_iff.2 ⟨degrees, e, names, m, hread, rfl⟩, hwanted _ _ _ _ hr⟩
  needed k hk := by
    obtain ⟨⟨names, m⟩, hread, -⟩ := h.needed k hk
    refine ⟨{ c with names, memory := m }, ?_, names, m, rfl⟩
    rw [← loadsState_eq] at hread
    simp only [restore, hread]

/-- Data that are read as an expression, or as the state of a calculator, are so from some bytes at their
start, which are enough whatever follows them, and every one of which is needed. From the same memory the
same is read of them again; and from every sound memory the same but for names, if the factorials inside
the tokens are settled. -/
theorem loads_of_part (a : Arithmetic) (data : List UInt8) :
    (∀ names m e names' m', loads a names m data = (.ok e, names', m') →
      let n := consumed (readExpression a (readingLimit + 1)) names m data
      ReadsPart (loads a names m) data n (fun e' r => e' = e ∧ r = (names', m')) (fun _ => True) ∧
      (a.kernel.Accurate → SettledInside a m e → ∀ first kept m₁, m₁.SoundBelow first kept →
        ReadsPart (loads a first m₁) data n (fun e' r => e.SameButNames e' ∧
          ∃ kept', r.2.SoundBelow r.1 kept') fun _ => True)) ∧
    (∀ c c' : Calculator, c.restore a data = (.ok (), c') →
      let n := consumed (readState a) c.names c.memory data
      ReadsPart (fun data => c.restore a data) data n (fun _ r => r = c')
        (fun r => ∃ names m, r = { c with names, memory := m }) ∧
      (a.kernel.Accurate → SettledInside a c.memory c'.buffer → ∀ other : Calculator, other.Sound →
        ReadsPart (fun data => other.restore a data) data n
          (fun _ r => r.degrees = c'.degrees ∧ c'.buffer.SameButNames r.buffer ∧
            r.shortDigits = other.shortDigits ∧ r.Sound)
          fun r => ∃ names m, r = { other with names, memory := m })) ∧
    ∃ report, (Failure.format .truncated).report? = some report ∧ report.errorClass = .format ∧
      report.code = "6001" := by
  refine ⟨fun names m e names' m' h => ?_, fun c c' h => ?_, ⟨_, rfl, rfl, rfl⟩⟩
  · obtain ⟨taken, rest, s', rfl, hn, hencodes, rfl, rfl⟩ := exists_of_decode exists_encodesExpression h
    simp only [← hn]
    refine ⟨hencodes.takes.readsPart rest, fun hk hsettled first kept m₁ hm₁ => ?_⟩
    obtain ⟨e', t', hmoved, hsame⟩ := hencodes.exists_moved hk hsettled hm₁
    obtain ⟨kept', -, hsound, -⟩ := hmoved.exists_names hk hm₁
    refine (hmoved.takes.readsPart rest).mono ?_
    rintro _ _ ⟨rfl, rfl⟩
    exact ⟨hsame, kept', hsound⟩
  · obtain ⟨degrees, e, names', m', hstate, rfl⟩ := restore_eq_ok_iff.1 h
    obtain ⟨taken, rest, s', rfl, hn, hencodes, rfl, rfl⟩ := exists_of_decode exists_encodesState hstate
    simp only [← hn]
    refine ⟨readsPart_restore (hencodes.takes.readsPart rest) ?_, fun hk hsettled other hother => ?_⟩
    · rintro _ _ _ _ ⟨⟨rfl, rfl⟩, rfl, rfl⟩
      rfl
    · obtain ⟨kept, hm₁⟩ := hother
      obtain ⟨unit, bytes, rfl, hunit, hexpression⟩ := hencodes
      obtain ⟨e', t', hmoved, hsame⟩ := hexpression.exists_moved hk hsettled hm₁
      obtain ⟨kept', -, hsound, -⟩ := hmoved.exists_names hk hm₁
      have hstate' : EncodesState a (unit ++ bytes) ⟨Known.empty, other.names, other.memory⟩
        (degrees, e') t' := ⟨unit, bytes, rfl, hunit, hmoved⟩
      refine readsPart_restore (hstate'.takes.readsPart rest) ?_
      rintro _ _ _ _ ⟨⟨rfl, rfl⟩, rfl, rfl⟩
      exact ⟨rfl, hsame, rfl, kept', hsound⟩

/-- A collapsed 2 twice, the second time as a reference, and a byte that is left over. -/
def sharedTwo : List UInt8 :=
  [0, 0, 0, 2, 2, 0, 0, 0, 1, 0, 0, 0, 1, 0, 0, 1, 50, 0, 0, 0, 0, 0, 1, 50, 2, 0, 0, 0, 1, 255]

/-- The token of 2. -/
def two : Token :=
  .collapsed 0 ((Dual.ofRat 2).keptAs 0) [.literal ⟨"2", false, ""⟩] ⟨false, 1⟩ "2"

theorem loads_of_part_shared :
    let a : Arithmetic := ⟨10000, Kernel.ideal⟩
    a.kernel.Accurate ∧ SettledInside a Memory.empty [two, two] ∧
      loads a 0 Memory.empty sharedTwo = (.ok [two, two], 1, Memory.empty) ∧
      ReadsPart (loads a 0 Memory.empty) sharedTwo 29
        (fun e r => e = [two, two] ∧ r = (1, Memory.empty)) (fun _ => True) ∧
      ReadsPart (loads a 7 Memory.empty) sharedTwo 29 (fun e r => Expression.SameButNames [two, two] e ∧
        ∃ kept, r.2.SoundBelow r.1 kept) (fun _ => True) ∧
      fresh.restore a (1 :: sharedTwo) = (.ok (), ⟨true, .integer 12, [two, two], 1, Memory.empty⟩) ∧
      fresh.Sound ∧
      ReadsPart (fun data => fresh.restore a data) (1 :: sharedTwo) 30
        (fun _ r => r.degrees = true ∧ Expression.SameButNames [two, two] r.buffer ∧
          r.shortDigits = .integer 12 ∧ r.Sound)
        fun r => ∃ names m, r = { fresh with names, memory := m } := by
  intro a
  have hk : a.kernel.Accurate := Kernel.ideal_accurate
  have hloads : loads a 0 Memory.empty sharedTwo = (.ok [two, two], 1, Memory.empty) := by cbv
  have hconsumed : consumed (readExpression a (readingLimit + 1)) 0 Memory.empty sharedTwo = 29 := by
    cbv
  have hrestore : fresh.restore a (1 :: sharedTwo) =
      (.ok (), ⟨true, .integer 12, [two, two], 1, Memory.empty⟩) := by cbv
  have hstate : consumed (readState a) fresh.names fresh.memory (1 :: sharedTwo) = 30 := by cbv
  have hempty := fun next => Memory.soundBelow_empty next fun _ => .pi
  have hsettled : SettledInside a Memory.empty [two, two] :=
    settledInside_of_loads hk (hempty 0) hloads (by simp [two, Expression.within, Token.within])
  have hsound : fresh.Sound := ⟨fun _ => .pi, hempty 0⟩
  obtain ⟨hsame, hmoved⟩ := (loads_of_part a sharedTwo).1 _ _ _ _ _ hloads
  obtain ⟨-, hmoved'⟩ := (loads_of_part a (1 :: sharedTwo)).2.1 _ _ hrestore
  rw [hconsumed] at hsame hmoved
  rw [hstate] at hmoved'
  exact ⟨hk, hsettled, hloads, hsame, hmoved hk hsettled 7 _ _ (hempty 7), hrestore, hsound,
    hmoved' hk hsettled fresh hsound⟩

/-- Where a factorial is not settled, data may be read once and be refused after that. -/
theorem loads_of_part_unsettled :
    let a : Arithmetic := ⟨10000, Elementary.kernel⟩
    let n := consumed (readExpression a (readingLimit + 1)) 0 Memory.empty unsettledBytes
    ∃ m, loads a 0 Memory.empty unsettledBytes = (.ok [unsettled 0], 1, m) ∧
      ∃ rest, (loads a 1 m (unsettledBytes.take n ++ rest)).1 =
        .error (.format (.unevaluable "Factorial of non-integer")) := by
  intro a n
  obtain ⟨m, -, hfirst, hagain⟩ := loads_unsettled
  have hloads := hfirst 0 []
  rw [List.append_nil] at hloads
  refine ⟨m, hloads, unsettledBytes.drop n, ?_⟩
  have hrefused := hagain 1 []
  rwa [List.append_nil, ← List.take_append_drop n unsettledBytes] at hrefused

end Calculator

end Reckoner
