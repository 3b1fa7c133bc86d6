import Reckoner.Proofs.Accuracy
import Reckoner.Proofs.Drawing
import Reckoner.Proofs.ExplicitStack
import Reckoner.Proofs.Recall
/-!
Sound memories. In a sound memory every kept node has the number of its identity, and every kept
approximation is as good as it says. Questions leave it sound, whatever they come to (`Term.ask_sound`):
nodes that are added change nothing of those that are there, and no node has a number in a sound memory
that depends on what was asked before.
-/
namespace Reckoner.Reals

/-- What is kept of the nodes of a graph are good approximations. -/
structure Kept (g : Graph) (cache : Cache BigFloat) : Prop where
  cached : g.accuracy.Cached cache
  size_le : cache.size ≤ g.size

/-- Every kept node shows the number of its identity, and what is kept of all nodes is good. -/
structure Memory.Sound (names : ℕ → Term) (m : Memory) : Prop where
  draft : m.draft.Sound names
  kept : Kept m.draft.graph m.cache

theorem Memory.sound_empty (names : ℕ → Term) : Memory.empty.Sound names where
  draft := Draft.sound_empty names
  kept := ⟨Draft.empty.graph.accuracy.cached_empty 0, Nat.zero_le _⟩

/-- The memory is sound, whatever the names from `next` on will stand for. -/
def Memory.SoundBelow (next : ℕ) (names : ℕ → Term) (m : Memory) : Prop :=
  ∀ names', (∀ n < next, names' n = names n) → m.Sound names'

theorem Memory.soundBelow_empty (next : ℕ) (names : ℕ → Term) : Memory.empty.SoundBelow next names :=
  fun names' _ => sound_empty names'

variable {g g' : Graph} {cache : Cache BigFloat} {kernel : Kernel} {names names' : ℕ → Term} {m : Memory}
  {t u : Term} {node : ℕ} {p : ℤ}

theorem getElem?_grow {size n : ℕ} {entry : ℤ × BigFloat}
    (h : (cache.grow size)[n]? = some (some entry)) : cache[n]? = some (some entry) := by
  rw [Cache.grow, Array.getElem?_append] at h
  split at h
  · exact h
  · rw [Array.getElem?_replicate] at h
    split at h <;> cases h

/-- What is kept of a graph serves for the graph that it grows to. -/
theorem Kept.grow (h : Kept g cache) (hg : g.Grows g') : Kept g' (cache.grow g'.size) where
  cached n q v hv hdefined := by
    have hkept := getElem?_grow hv
    have hn : n < g.size := (Array.getElem?_eq_some_iff.1 hkept).1.trans_le h.size_le
    rw [hg.value hn]
    exact h.cached n q v hkept ((hg.isDefined hn).1 hdefined)
  size_le := by
    have hle := h.size_le.trans hg.size_le
    rw [Cache.grow, Array.size_append, Array.size_replicate]
    omega

/-! Queries leave good approximations, and as many places for them as they found. -/

theorem Configuration.size_kept_of_step {α ε : Type} {programs : Programs α ε}
    {s t : Configuration α ε} (h : step programs s = .inr t) : t.kept.size = s.kept.size := by
  cases s with
  | running n p request stack cache =>
    cases request with
    | done value =>
      cases h
      exact Array.size_setIfInBounds
    | fail error => cases h
    | ask i q resume =>
      simp only [step] at h
      split at h <;>
      · cases h
        rfl
  | returning value stack cache =>
    cases stack with
    | nil => cases h
    | cons f fs =>
      cases h
      rfl

theorem size_run {α ε : Type} (programs : Programs α ε) (s : Configuration α ε) :
    (run programs s).2.size = s.kept.size := by
  obtain ⟨t, hreaches, hkept⟩ := exists_reaches_end programs s
  rw [hkept]
  clear hkept
  induction hreaches with
  | refl => rfl
  | tail _ hstep ih => rw [Configuration.size_kept_of_step hstep, ih]

/-- A query leaves what is kept of a graph good. -/
def Query.Keeps {α : Type} (g : Graph) (query : Query α) : Prop :=
  ∀ cache, Kept g cache → Kept g (query cache).2

namespace Query.Keeps

variable {α β : Type} {query : Query α}

theorem pure (v : α) : Keeps g (Pure.pure v) := fun _ h => h

theorem bind {f : α → Query β} (h : query.Keeps g) (hf : ∀ v, (f v).Keeps g) :
    Keeps g (query >>= f) := by
  intro cache hkept
  have hquery := h cache hkept
  simp only [Bind.bind, ExceptT.bind, ExceptT.mk, StateT.bind]
  rcases hanswer : query cache with ⟨e | v, cache'⟩ <;> rw [hanswer] at hquery
  · exact hquery
  · exact hf v cache' hquery

theorem map {f : α → β} (h : query.Keeps g) : Keeps g (f <$> query) := by
  rw [← bind_pure_comp]
  exact h.bind fun v => pure (f v)

variable (hk : kernel.Accurate)

include hk

theorem approximateTo (g : Graph) (node : ℕ) (p : ℤ) : Keeps g (approximateTo kernel g node p) := by
  intro cache h
  constructor
  · exact (g.accuracy.settles_approximate (g.keeps_programs hk) h.cached node p).cache
  · show (approximate (g.programs kernel) node p cache).2.size ≤ g.size
    unfold approximate
    split
    · exact h.size_le
    · rw [size_run]
      exact h.size_le

theorem approximateBits (g : Graph) (node : ℕ) (bits : ℤ) :
    Keeps g (approximateBits kernel g node bits) := by
  refine (approximateTo hk g node _).bind fun rough => ?_
  split <;> exact approximateTo hk g node _

theorem isInteger (g : Graph) (node : ℕ) (p : ℤ) : Keeps g (isInteger kernel g node p) :=
  (approximateTo hk g node _).bind fun _ => pure _

theorem toInteger (g : Graph) (node : ℕ) : Keeps g (toInteger kernel g node) :=
  (approximateTo hk g node _).bind fun _ => pure _

theorem integer? (g : Graph) (node : ℕ) (p : ℤ) : Keeps g (integer? kernel g node p) := by
  refine (isInteger hk g node p).bind fun isInteger => ?_
  split
  · exact (toInteger hk g node).map
  · exact pure _

end Query.Keeps

/-! Questions about terms. -/

namespace Memory.Sound

/-- Where a term is drawn from a sound memory, its node shows its number, and what is kept is good. -/
theorem draw (hm : m.Sound names) (ht : t.Consistent names) :
    let x := Draft.draw t m.draft
    x.draft.graph.Shows x.node t ∧ x.draft.Sound names ∧
      Kept x.draft.graph (m.cache.grow x.draft.graph.size) := by
  have hdraws := Draft.draw_draws ht hm.draft
  exact ⟨hdraws.shows, hdraws.sound, hm.kept.grow hdraws.grows⟩

end Memory.Sound

/-- A question is one about a node that shows the number, where what is kept is good. -/
theorem Term.exists_ask {α : Type} (hm : m.Sound names) (ht : t.Consistent names)
    (query : Graph → ℕ → Query α) :
    ∃ g node cache, g.Shows node t ∧ Kept g cache ∧ (t.ask query m).1 = (query g node cache).1 := by
  obtain ⟨hshows, -, hkept⟩ := hm.draw ht
  exact ⟨_, _, _, hshows, hkept, rfl⟩

/-- A question leaves a sound memory, also where it has no answer. -/
theorem Term.ask_sound {α : Type} (hm : m.Sound names) (ht : t.Consistent names)
    {query : Graph → ℕ → Query α} (hquery : ∀ g node, (query g node).Keeps g) :
    (t.ask query m).2.Sound names := by
  obtain ⟨-, hsound, hkept⟩ := hm.draw ht
  exact ⟨hsound, hquery _ _ _ hkept⟩

/-- A computation leaves a sound memory, whatever it comes to. -/
def Recall.Keeps {ε α : Type} (names : ℕ → Term) (x : Recall ε α) : Prop :=
  ∀ m, m.Sound names → (x m).2.Sound names

namespace Recall.Keeps

variable {ε ε' α β : Type}

theorem pure (v : α) : Keeps names (Pure.pure v : Recall ε α) := fun _ h => h

theorem ofExcept (x : Except ε α) : Keeps names (Recall.ofExcept x) := fun _ h => h

theorem mapError {x : Recall ε α} (hx : x.Keeps names) (f : ε → ε') : Keeps names (x.mapError f) :=
  fun m hm => hx m hm

theorem bind {x : Recall ε α} {f : α → Recall ε β} (hx : x.Keeps names)
    (hf : ∀ v, (f v).Keeps names) : Keeps names (x >>= f) := by
  intro m hm
  have hkept := hx m hm
  rw [bind_apply]
  rcases hresult : x m with ⟨e | v, m'⟩
  · rwa [hresult] at hkept
  · rw [hresult] at hkept
    exact hf v m' hkept

end Recall.Keeps

end Reckoner.Reals
