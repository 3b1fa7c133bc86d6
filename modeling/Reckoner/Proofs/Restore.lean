import Reckoner.Proofs.Alike
import Reckoner.Proofs.Consumption
import Reckoner.Proofs.History
import Reckoner.Proofs.RoundTrip
/-!
Saving a calculator and restoring it in another. What a run leaves in the buffer can always be saved. It
can be restored only if no value in it occurs inside itself: a value that collapsing hands on unchanged
is numbered before the expression inside its token is written, so that the token inside is written as a
reference to what no reader can know yet. Where that is so, and the values come out again, it is
restored (`restore_save`).
-/
namespace Reckoner

open Reals

namespace Codec

theorem Fits.mono {depth depth' : Nat} {e : Expression} (h : Fits depth e) (hle : depth ≤ depth') :
    Fits depth' e :=
  { h with nesting := Nat.le_trans h.nesting hle }

variable {a : Arithmetic} {e e' : Expression}

/-- The same expression, but for names, cannot be read from fewer bytes than it has. -/
theorem size_le_of_loadsState (ht : e.Threaded) {names names' : Nat} {m m' : Memory}
    {degrees degrees' : Bool} {data : List UInt8}
    (h : loadsState a names m (boolField degrees ++ data) = (.ok (degrees', e'), names', m'))
    (he : e'.Alike e) : 4 + e.size ≤ data.length := by
  have hthreaded := he.threaded ht
  have hsize := he.size_eq
  obtain ⟨p, h⟩ := decode_eq_ok h
  obtain ⟨b, p₁, hb, h⟩ := run_bind_eq_ok_iff.1 h
  obtain ⟨e₁, p₂, he₁, h⟩ := run_bind_eq_ok_iff.1 h
  cases h
  obtain ⟨s₁, hs₁, rfl⟩ := field_eq_ok hb
  have hleft := length_readBool hs₁
  have hread := ((exhausts_readExpression a _ _ _ _ he₁ fun k t hk => by cases hk).2 rfl hthreaded)
  simp only [Stream.ofBytes, boolField, List.length_append, List.length_singleton,
    Progress.left] at hleft hread
  omega

/-- The values in an expression that is what collapsing makes come out again where it is read. -/
def Recoverable (a : Arithmetic) (e : Expression) : Prop :=
  ∃ names, Composed a names e ∧ Reproducible a names e

/-- What is written of a savable expression, with a unit of angles, is read back. -/
theorem exists_dumpsState (hk : a.kernel.Accurate) {names : ℕ → Term} (hs : Savable a names e)
    (hr : Reproducible a names e) (hf : Fits readingLimit e) (degrees : Bool) :
    ∃ data, dumpsState degrees e = .ok data ∧ ∀ first names₀ m, m.SoundBelow first names₀ →
      ∃ e' first' m', loadsState a first m data = (.ok (degrees, e'), first', m') ∧
        e'.Alike e := by
  obtain ⟨data, -, -, hdata, -⟩ := exists_decodes_dumps hk hs hr hf (Memory.soundBelow_empty 0 names)
  refine ⟨boolField degrees ++ data, by rw [dumpsState, hdata]; rfl, fun first names₀ m hm => ?_⟩
  obtain ⟨data', known, m', hdata', hdecodes⟩ := exists_decodes_dumps hk hs hr hf hm
  obtain rfl : data = data' := Except.ok.inj (hdata.symm.trans hdata')
  have hstate : Decodes (do return (← field readBool, ← readExpression a (readingLimit + 1)))
      (boolField degrees ++ data) ⟨Known.empty, first, m⟩ (degrees, e.rename (newNames e first))
      ⟨known, first + (e.finish []).length, m'⟩ :=
    (decodes_field (yields_readBool degrees) _).bind (hdecodes.done (decodes_pure _ _))
  have hloads := hstate.decode []
  rw [List.append_nil] at hloads
  exact ⟨_, _, m', hloads, e.alike_rename _⟩

end Codec

namespace Calculator

variable {a : Arithmetic} {c : Calculator}

/-- Whether restoring some bytes gives another calculator the state of `c`: its unit of angles and, but
for names, its buffer. -/
def Restores (a : Arithmetic) (data : List UInt8) (other c : Calculator) : Prop :=
  ∃ c', other.restore a data = (.ok (), c') ∧ c'.degrees = c.degrees ∧
    c'.buffer.Alike c.buffer

/-- The memory is sound, and the free names are free. -/
def Sound (c : Calculator) : Prop := ∃ names, c.memory.SoundBelow c.names names

theorem restores_iff {data : List UInt8} {other : Calculator} :
    Restores a data other c ↔ ∃ e' names' m', Codec.loadsState a other.names other.memory data =
      (.ok (c.degrees, e'), names', m') ∧ e'.Alike c.buffer := by
  unfold Restores restore
  rcases Codec.loadsState a other.names other.memory data with ⟨e | ⟨degrees, e'⟩, names', m'⟩
  · simp
  · simp only [Prod.mk.injEq, true_and, exists_eq_left', Except.ok.injEq]
    constructor
    · rintro ⟨rfl, he⟩
      exact ⟨e', names', m', ⟨⟨rfl, rfl⟩, rfl, rfl⟩, he⟩
    · rintro ⟨e'', names'', m'', ⟨⟨rfl, rfl⟩, rfl, rfl⟩, he⟩
      exact ⟨rfl, he⟩

theorem save_of_threaded (h : c.buffer.Threaded) (hf : Codec.Fits Codec.readingLimit c.buffer) :
    ∃ data, c.save = .ok data ∧ (∀ other, Restores a data other c → c.buffer.Apart) ∧
      (a.kernel.Accurate → c.buffer.Apart → Codec.Recoverable a c.buffer → ∀ other : Calculator,
        other.Sound → Restores a data other c) := by
  obtain ⟨data, hdata, hlength⟩ := Codec.exists_dumps_length hf
  have hsave : c.save = .ok (Codec.boolField c.degrees ++ data) := by
    rw [save, Codec.dumpsState, hdata]
    rfl
  refine ⟨_, hsave, fun other hrestores => ?_, fun hk hapart hrecoverable other hsound => ?_⟩
  · obtain ⟨e', names', m', hloads, he⟩ := restores_iff.1 hrestores
    by_contra hapart
    exact absurd (Codec.size_le_of_loadsState h hloads he) (Nat.not_le.2 (hlength hapart))
  · obtain ⟨names, hcomposed, hr⟩ := hrecoverable
    obtain ⟨names₀, hm⟩ := hsound
    have hs : Codec.Savable a names c.buffer := ⟨hcomposed, h.shared hapart, hapart⟩
    obtain ⟨data', hdata', hloads⟩ := Codec.exists_dumpsState hk hs hr hf c.degrees
    obtain rfl := Except.ok.inj (hsave.symm.trans hdata')
    exact restores_iff.2 (hloads other.names names₀ other.memory hm)

/-- Whatever a run has done to a calculator, it can be saved. Another one gets its state back only if no
value of a collapsed token in the buffer occurs inside the token, and it does get it back if moreover
the values come out again. -/
theorem restore_save {files : Files} {degrees : Option Bool} {next : ℕ} {m : Memory}
    {c₀ : Calculator} (hstart : start files degrees next m = .ok c₀) (actions : List Action)
    (hf : Codec.Fits 100 (c₀.run a actions).buffer) :
    ∃ data, (c₀.run a actions).save = .ok data ∧
      (∀ other, Restores a data other (c₀.run a actions) → (c₀.run a actions).buffer.Apart) ∧
      (a.kernel.Accurate → (c₀.run a actions).buffer.Apart →
        Codec.Recoverable a (c₀.run a actions).buffer →
        ∀ other : Calculator, other.Sound → Restores a data other (c₀.run a actions)) := by
  have hmade : Made (fun t => ∀ l, t = .literal l → l.WellFormed) (c₀.run a actions).buffer := by
    refine made_run ⟨?_, ?_⟩ ?_ hstart actions <;> simp
  exact save_of_threaded hmade.threaded (hf.mono (by decide))

/-- What is asked for in `restore_save` besides: every run leaves collapsed tokens with the values of
their expressions, and a sound memory. -/
theorem composed_run (hk : a.kernel.Accurate) {files : Files} {degrees : Option Bool} {next : ℕ}
    {m : Memory} {names : ℕ → Term} (hm : m.SoundBelow next names) {c₀ : Calculator}
    (hstart : start files degrees next m = .ok c₀) (actions : List Action) :
    (c₀.run a actions).Sound ∧ ∃ names', Codec.Composed a names' (c₀.run a actions).buffer := by
  obtain ⟨names', hkept⟩ := kept_run hk hm hstart actions
  exact ⟨⟨names', hkept.sound⟩, names', (hkept.made names' fun _ _ => rfl).tokens⟩

/-- A calculator without files, in radians. -/
def fresh : Calculator := ⟨false, .integer 12, [], 0, Memory.empty⟩

/-- The token of the square of a token. -/
def squared : Token :=
  .collapsed 1 ((Dual.ofRat 9).keptAs 1) [Codec.three, .operator (.suffix .square)] ⟨false, 2⟩ "9"

theorem mem_squared : ∀ t ∈ Expression.within [squared], t = squared ∨ t = Codec.three ∨
    (∃ k, t = .operator k) ∨ t = .literal ⟨"1", false, ""⟩ ∨ t = .literal ⟨"2", true, "0"⟩ := by
  have hwithin : Expression.within [squared] = [squared, Codec.three, .literal ⟨"1", false, ""⟩,
      .operator (.binary .plus), .literal ⟨"2", true, "0"⟩, .operator (.suffix .square)] := rfl
  simp [hwithin]

theorem apart_squared : Expression.Apart [squared] := by
  rintro t ht s hs ⟨i, hi, hj⟩
  rcases mem_squared _ ht with rfl | rfl | ⟨k, rfl⟩ | rfl | rfl <;> cases hi
  · simp only [squared, Codec.three, Token.within, Expression.within, List.nil_append,
      List.cons_append, List.mem_cons, List.not_mem_nil, or_false] at hs
    rcases hs with rfl | rfl | rfl | rfl | rfl <;> cases hj
  · simp only [Codec.three, Token.within, Expression.within, List.nil_append, List.mem_cons,
      List.not_mem_nil, or_false] at hs
    rcases hs with rfl | rfl | rfl <;> cases hj

theorem recoverable_squared : Codec.Recoverable ⟨10000, Kernel.ideal⟩ [squared] := by
  refine ⟨Codec.nestedNames, fun t ht => ?_, fun k t hk => ?_⟩
  · rcases mem_squared t ht with rfl | rfl | ⟨k, rfl⟩ | rfl | rfl
    · exact ⟨⟨rfl, trivial⟩, rfl, Memory.empty, Dual.ofRat 9, Memory.sound_empty _, by cbv, rfl⟩
    · exact Codec.composedToken_three
    · exact trivial
    · constructor <;> simp
    · constructor <;> simp
  · have hdeep : 6 ≤ Codec.evaluationRoom (Codec.readingLimit - k) := by
      have hle : t.nesting + k ≤ 2 := hk.nesting_le
      unfold Codec.evaluationRoom Codec.readingLimit
      omega
    rcases mem_squared t hk.mem_within with rfl | rfl | ⟨k, rfl⟩ | rfl | rfl
    · have hsquare : Grammar.IsExpression [Codec.three, .operator (.suffix .square)]
          (.suffix .square (.collapsed ((Dual.ofRat 3).keptAs 0))) :=
        .expr (.term (.signedFactor (.factor (.suffix .collapsed (.suffixesMore .suffixesDone))))
          .productsDone) .sumsDone
      exact ⟨Grammar.steady_of_not_mem (by simp [Codec.three]), _, hsquare, fun _ _ => hdeep⟩
    · exact Codec.reproducibleToken_three hdeep
    · exact trivial
    · exact trivial
    · exact trivial

theorem restore_save_collapsed_again :
    let a : Arithmetic := ⟨10000, Kernel.ideal⟩
    let actions : List Action := [.type "1+2.0", .collapse, .press (.suffix .square), .collapse]
    let c := fresh.run a actions
    a.kernel.Accurate ∧
      start ⟨none, none, true⟩ (some false) 0 Memory.empty = .ok fresh ∧ Codec.Fits 100 c.buffer ∧
      c.buffer.Apart ∧ Codec.Recoverable a c.buffer ∧ fresh.Sound ∧
      ∃ data, c.save = .ok data ∧ Restores a data fresh c := by
  intro a actions c
  have hstart : start ⟨none, none, true⟩ (some false) 0 Memory.empty = .ok fresh := by cbv
  have hc : (fresh.run a actions).buffer = [squared] := by cbv
  have hf : Codec.Fits 100 (fresh.run a actions).buffer := by
    rw [hc]
    exact ⟨by decide, by decide, by decide, by decide⟩
  have hapart : (fresh.run a actions).buffer.Apart := hc ▸ apart_squared
  have hrecoverable : Codec.Recoverable a (fresh.run a actions).buffer := hc ▸ recoverable_squared
  have hsound : fresh.Sound := ⟨fun _ => .pi, Memory.soundBelow_empty 0 _⟩
  obtain ⟨data, hsave, -, hrestores⟩ := restore_save hstart actions hf
  exact ⟨Kernel.ideal_accurate, hstart, hf, hapart, hrecoverable, hsound, data, hsave,
    hrestores Kernel.ideal_accurate hapart hrecoverable fresh hsound⟩

/-- The arithmetic of the shipped calculator. -/
def shippedArithmetic : Arithmetic := ⟨10000, Elementary.kernel⟩

/-- Collapsing a collapsed token once more hands its value on: it is inside itself then, and what is
saved cannot be restored. -/
theorem not_restores_collapsed_twice :
    let c := fresh.run shippedArithmetic [.type "1+2", .collapse, .collapse]
    start ⟨none, none, true⟩ (some false) 0 Memory.empty = .ok fresh ∧ Codec.Fits 100 c.buffer ∧
      ∃ data, c.save = .ok data ∧ ∀ other, ¬ Restores shippedArithmetic data other c := by
  intro c
  have hstart : start ⟨none, none, true⟩ (some false) 0 Memory.empty = .ok fresh := by cbv
  have hc : fresh.run shippedArithmetic [.type "1+2", .collapse, .collapse] =
      ⟨false, .integer 12, [.collapsed 1 ((Dual.ofRat 3).keptAs 0)
      [.collapsed 0 ((Dual.ofRat 3).keptAs 0)
        [.literal ⟨"1", false, ""⟩, .operator (.binary .plus), .literal ⟨"2", false, ""⟩]
        ⟨false, 3⟩ "3"] ⟨false, 1⟩ "3"], 2, Memory.empty⟩ := by
    cbv
  have hf : Codec.Fits 100 c.buffer := by
    simp only [c, hc]
    exact ⟨by decide, by decide, by decide, by decide⟩
  have hsave : c.save =
      .ok [0, 0, 0, 0, 1, 2, 0, 0, 0, 1, 0, 0, 0, 1, 2, 0, 0, 0, 1, 0, 0, 1, 51] := by
    simp only [c, hc]
    cbv
  refine ⟨hstart, hf, _, hsave, fun other hrestores => ?_⟩
  obtain ⟨c', hc', -⟩ := hrestores
  have hfailure : (other.restore shippedArithmetic [0, 0, 0, 0, 1, 2, 0, 0, 0, 1, 0, 0, 0, 1, 2, 0,
      0, 0, 1, 0, 0, 1, 51]).1 = .error (.format .truncated) := by
    cbv
  rw [hc'] at hfailure
  cases hfailure

end Calculator

end Reckoner
