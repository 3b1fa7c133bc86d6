import Mathlib.Data.List.Nodup
import Reckoner.Shipped
import Reckoner.Proofs.Outcome
/-!
Captions that are written and read again. Tables of texts come back as they were, whatever is escaped
on the way (`Json.read_write`); so the captions file that is shipped gives every key its built-in look
(`Files.plainLooks_of_shipped`).
-/
namespace Reckoner

namespace Text

/-- A value below 65536 has four hexadecimal digits. -/
theorem toList_hex_four {n : Nat} (h : n < 0x10000) :
    (hex 4 n).toList = [(n / 0x1000).digitChar, (n / 0x100 % 16).digitChar,
      (n / 0x10 % 16).digitChar, (n % 16).digitChar] := by
  have hstep : ∀ m, 16 ≤ m → Nat.toDigits 16 m = Nat.toDigits 16 (m / 16) ++ [(m % 16).digitChar] :=
    fun m hm => Nat.toDigits_of_base_le (by decide) hm
  have hone : ∀ m, m < 16 → Nat.toDigits 16 m = [m.digitChar] := fun m hm => Nat.toDigits_of_lt_base hm
  rw [hex, String.toList_ofList]
  by_cases h₁ : n < 16
  · rw [hone n h₁, Nat.div_eq_of_lt (by omega : n < 0x1000), Nat.div_eq_of_lt (by omega : n < 0x100),
      Nat.div_eq_of_lt h₁, Nat.mod_eq_of_lt h₁]
    rfl
  rw [hstep n (by omega)]
  by_cases h₂ : n < 0x100
  · rw [hone (n / 16) (by omega), Nat.div_eq_of_lt (by omega : n < 0x1000), Nat.div_eq_of_lt h₂,
      Nat.mod_eq_of_lt (by omega : n / 0x10 < 16)]
    rfl
  rw [hstep (n / 16) (by omega), Nat.div_div_eq_div_mul]
  by_cases h₃ : n < 0x1000
  · rw [hone (n / (16 * 16)) (by omega), Nat.div_eq_of_lt h₃,
      Nat.mod_eq_of_lt (by omega : n / 0x100 < 16)]
    rfl
  rw [hstep (n / (16 * 16)) (by omega), Nat.div_div_eq_div_mul, hone (n / (16 * 16 * 16)) (by omega)]
  rfl

end Text

namespace Json

theorem hexDigit?_digitChar {d : Nat} (h : d < 16) : hexDigit? d.digitChar = some d := by
  have hall : ∀ d : Fin 16, hexDigit? d.val.digitChar = some d.val := by decide
  exact hall ⟨d, h⟩

theorem hexFour_hex {n : Nat} (h : n < 0x10000) (cs : List Char) :
    hexFour ((Text.hex 4 n).toList ++ cs) = .ok (n, cs) := by
  rw [Text.toList_hex_four h]
  simp only [List.cons_append, List.nil_append, hexFour]
  rw [hexDigit?_digitChar (by omega), hexDigit?_digitChar (by omega), hexDigit?_digitChar (by omega),
    hexDigit?_digitChar (by omega)]
  dsimp only
  rw [show ((n / 0x1000 * 16 + n / 0x100 % 16) * 16 + n / 0x10 % 16) * 16 + n % 16 = n by omega]

/-- A character that is escaped by its own code unit. -/
theorem escapedUnit_hex {c : Char} (h : c.toNat < 0x10000) (cs : List Char) :
    escapedUnit ((Text.hex 4 c.toNat).toList ++ cs) = .ok (c, cs) := by
  have hvalid : c.toNat < 0xd800 ∨ 0xdfff < c.toNat ∧ c.toNat < 0x110000 := c.valid
  rw [escapedUnit, hexFour_hex h]
  refine bind_eq_ok_iff.2 ⟨_, rfl, ?_⟩
  dsimp only
  rw [if_neg (by simp; omega), if_neg (by simp; omega), Char.ofNat_toNat]
  rfl

theorem readText_writeChar {c : Char} (h : c.toNat < 0x10000) (steps : Nat) (before cs : List Char) :
    readText (steps + 1) before ((writeChar c).toList ++ cs) = readText steps (c :: before) cs := by
  have hquote : ∀ n, c.toNat = n → c = Char.ofNat n := fun n hn => by rw [← hn, Char.ofNat_toNat]
  unfold writeChar
  split_ifs with h₁ h₂ h₃ h₄ h₅ h₆ h₇ h₈
  · rw [h₁]; rfl
  · rw [h₂]; rfl
  · rw [h₃]; rfl
  · rw [h₄]; rfl
  · rw [h₅]; rfl
  · rw [hquote 8 h₆]; rfl
  · rw [hquote 12 h₇]; rfl
  · simp only [Bool.and_eq_true, decide_eq_true_eq] at h₈
    rw [show c.toString.toList ++ cs = c :: cs by simp, readText, if_neg (by omega)]
    · exact h₁
    · exact h₂
  · rw [unitEscape, String.toList_append, List.append_assoc,
      show ∀ cs, "\\u".toList ++ cs = '\\' :: 'u' :: cs from fun _ => rfl, readText, escaped,
      escapedUnit_hex h]
    rfl

/-- All characters are of the basic plane. -/
def IsBasic (s : String) : Prop := ∀ c ∈ s.toList, c.toNat < 0x10000

theorem isBasic_of_all {s : String} (h : s.toList.all fun c => c.toNat < 0x10000) : IsBasic s := by
  simpa [IsBasic] using h

/-- Texts, and tables of them nested at most so deep, in which no name stands twice. -/
inductive IsCaptions : Nat → Json → Prop where
  | text {depth : Nat} {s : String} (hs : IsBasic s) : IsCaptions depth (.text s)
  | table {depth : Nat} {entries : List (String × Json)} (hnames : (entries.map Prod.fst).Nodup)
      (hbasic : ∀ entry ∈ entries, IsBasic entry.1)
      (hvalues : ∀ entry ∈ entries, IsCaptions depth entry.2) :
      IsCaptions (depth + 1) (.table entries)

theorem toList_writeText (s : String) :
    (writeText s).toList = '"' :: s.toList.flatMap (fun c => (writeChar c).toList) ++ ['"'] := by
  rw [writeText, String.toList_append, String.toList_append, String.toList_join, List.flatMap_map]
  rfl

theorem readText_body {cs : List Char} (h : ∀ c ∈ cs, c.toNat < 0x10000) {steps : Nat}
    (hsteps : cs.length < steps) (before rest : List Char) :
    readText steps before (cs.flatMap (fun c => (writeChar c).toList) ++ '"' :: rest) =
      .ok (String.ofList (before.reverse ++ cs), rest) := by
  induction cs generalizing steps before with
  | nil =>
    obtain ⟨steps, rfl⟩ : ∃ n, steps = n + 1 := ⟨steps - 1, by simp at hsteps; omega⟩
    rw [List.append_nil]
    rfl
  | cons c cs ih =>
    obtain ⟨steps, rfl⟩ : ∃ n, steps = n + 1 := ⟨steps - 1, by simp at hsteps; omega⟩
    obtain ⟨hc, hcs⟩ := List.forall_mem_cons.1 h
    rw [List.flatMap_cons, List.append_assoc, readText_writeChar hc,
      ih hcs (by simpa using hsteps), List.reverse_cons, List.append_assoc]
    rfl

theorem writeChar_ne_nil {c : Char} (h : c.toNat < 0x10000) : (writeChar c).toList ≠ [] := by
  unfold writeChar
  split_ifs <;> simp [unitEscape]

theorem length_le_writeText {s : String} (hs : IsBasic s) :
    s.toList.length < (writeText s).toList.length := by
  have hbody : ∀ cs : List Char, (∀ c ∈ cs, c.toNat < 0x10000) →
      cs.length ≤ (cs.flatMap fun c => (writeChar c).toList).length := by
    intro cs hcs
    induction cs with
    | nil => exact Nat.zero_le 0
    | cons c cs ih =>
      obtain ⟨hc, hcs⟩ := List.forall_mem_cons.1 hcs
      have hchar := List.length_pos_iff.2 (writeChar_ne_nil hc)
      have hrest := ih hcs
      rw [List.flatMap_cons, List.length_append, List.length_cons]
      omega
  have hlength := hbody s.toList hs
  rw [toList_writeText, List.length_append, List.length_cons, List.length_singleton]
  omega

/-- A written text is read up to its closing quote. -/
theorem readText_writeText {s : String} (hs : IsBasic s) (steps : Nat)
    (hsteps : (writeText s).toList.length ≤ steps) (rest : List Char) :
    ∃ cs, (writeText s).toList ++ rest = '"' :: cs ∧ readText steps [] cs = .ok (s, rest) := by
  have hlength := length_le_writeText hs
  refine ⟨s.toList.flatMap (fun c => (writeChar c).toList) ++ '"' :: rest, ?_, ?_⟩
  · rw [toList_writeText]
    simp
  · rw [readText_body hs (by omega)]
    simp

theorem skipBlanks_newLine (level : Nat) {c : Char} {cs : List Char}
    (hc : (c = ' ' || c = '\t' || c = '\n' || c = '\r') = false) :
    skipBlanks ((newLine level).toList ++ c :: cs) = c :: cs := by
  rw [newLine, String.toList_ofList, List.cons_append, skipBlanks, List.dropWhile_cons_of_pos (by decide),
    List.dropWhile_append_of_pos fun c hc => by rw [List.eq_of_mem_replicate hc]; decide,
    List.dropWhile_cons_of_neg (by rw [hc]; decide)]

theorem putEntry_of_notMem {ν β : Type} [DecidableEq ν] {name : ν} {value : β} {entries : List (ν × β)}
    (h : name ∉ entries.map Prod.fst) : putEntry name value entries = entries ++ [(name, value)] := by
  induction entries with
  | nil => rfl
  | cons entry entries ih =>
    rw [List.map_cons, List.mem_cons, not_or] at h
    rw [putEntry, if_neg (Ne.symm h.1), ih h.2]
    rfl

theorem skipBlanks_cons {c : Char} {cs : List Char}
    (hc : (c = ' ' || c = '\t' || c = '\n' || c = '\r') = false) : skipBlanks (c :: cs) = c :: cs := by
  rw [skipBlanks, List.dropWhile_cons_of_neg (by rw [hc]; decide)]

/-- What is read back wherever it stands, as far as it goes. -/
def ReadsBack (depth : Nat) (v : Json) : Prop :=
  ∀ level, (∃ c cs, (write level v).toList = c :: cs ∧
      (c = ' ' || c = '\t' || c = '\n' || c = '\r') = false) ∧
    ∀ steps, (write level v).toList.length ≤ steps → ∀ rest,
      readValue depth (steps + 1) ((write level v).toList ++ rest) = .ok (v, rest)

theorem readsBack_text (depth : Nat) {s : String} (hs : IsBasic s) : ReadsBack depth (.text s) := by
  intro level
  rw [write]
  refine ⟨⟨'"', _, toList_writeText s, by decide⟩, fun steps hsteps rest => ?_⟩
  obtain ⟨cs, hcs, hread⟩ := readText_writeText hs (steps + 1) (Nat.le_succ_of_le hsteps) rest
  rw [hcs, readValue, hread]
  rfl

/-- One entry, up to what follows its value. -/
theorem readEntries_entry {depth level : Nat} {name : String} {value : Json} (hname : IsBasic name)
    (hvalue : ReadsBack depth value) {steps : Nat}
    (hsteps : (writeText name).toList.length + (write level value).toList.length < steps)
    (before : List (String × Json)) {after rest : List Char} {c : Char}
    (hafter : skipBlanks after = c :: rest) :
    readEntries depth (steps + 1) before (skipBlanks ((newLine level).toList ++
      ((writeText name).toList ++ (':' :: ' ' :: ((write level value).toList ++ after))))) =
      if c = '\x7d' then .ok (putEntry name value before, rest)
      else if c = ',' then readEntries depth steps (putEntry name value before) (skipBlanks rest)
      else .error .malformed := by
  obtain ⟨⟨first, cs, hfirst, hblank⟩, hread⟩ := hvalue level
  have hvalue' : skipBlanks (' ' :: ((write level value).toList ++ after)) =
      (write level value).toList ++ after := by
    rw [hfirst, skipBlanks, List.dropWhile_cons_of_pos (by decide)]
    exact skipBlanks_cons hblank
  obtain ⟨cs, hcs, htext⟩ := readText_writeText hname (steps + 1) (by omega)
    (':' :: ' ' :: ((write level value).toList ++ after))
  obtain ⟨steps, rfl⟩ : ∃ n, steps = n + 1 := ⟨steps - 1, by omega⟩
  rw [hcs, skipBlanks_newLine level (by decide), readEntries, htext]
  dsimp only [bind, Except.bind]
  rw [skipBlanks_cons (by decide)]
  simp only [hvalue', hread steps (by omega), hafter]
  split
  · rename_i heq
    obtain ⟨rfl, rfl⟩ := List.cons.inj heq
    rfl
  · rename_i heq
    obtain ⟨rfl, rfl⟩ := List.cons.inj heq
    rfl
  · rename_i hbrace hcomma
    rw [if_neg fun h => hbrace rest (by rw [h]), if_neg fun h => hcomma rest (by rw [h])]

theorem toList_writeEntries (level : Nat) (name : String) (value : Json)
    (entries : List (String × Json)) :
    (writeEntries level ((name, value) :: entries)).toList =
      (newLine level).toList ++ ((writeText name).toList ++ (':' :: ' ' ::
        ((write level value).toList ++
          if entries.isEmpty then [] else ',' :: (writeEntries level entries).toList))) := by
  cases entries <;> simp [writeEntries]

/-- Entries, up to the closing brace. -/
theorem readEntries_write {depth : Nat} {entries : List (String × Json)} (hne : entries ≠ [])
    (hbasic : ∀ entry ∈ entries, IsBasic entry.1) (hvalues : ∀ entry ∈ entries, ReadsBack depth entry.2)
    (level outer : Nat) {before : List (String × Json)}
    (hnames : ((before ++ entries).map Prod.fst).Nodup) {steps : Nat}
    (hsteps : (writeEntries level entries).toList.length ≤ steps) (rest : List Char) :
    readEntries depth steps before (skipBlanks ((writeEntries level entries).toList ++
      ((newLine outer).toList ++ '\x7d' :: rest))) = .ok (before ++ entries, rest) := by
  induction entries generalizing before steps with
  | nil => exact absurd rfl hne
  | cons entry entries ih =>
    obtain ⟨name, value⟩ := entry
    have hname : IsBasic name := hbasic _ List.mem_cons_self
    have hvalue : ReadsBack depth value := hvalues _ List.mem_cons_self
    have hnew : name ∉ before.map Prod.fst := by
      rw [List.map_append, List.nodup_append] at hnames
      exact fun h => hnames.2.2 name h name List.mem_cons_self rfl
    have hlength : ((newLine level).toList ++ (writeText name).toList).length ≠ 0 := by simp [newLine]
    rw [toList_writeEntries] at hsteps ⊢
    simp only [List.length_append, List.length_cons] at hsteps hlength
    obtain ⟨steps, rfl⟩ : ∃ n, steps = n + 1 := ⟨steps - 1, by omega⟩
    simp only [List.append_assoc, List.cons_append]
    cases entries with
    | nil =>
      have hend : skipBlanks ([] ++ ((newLine outer).toList ++ '\x7d' :: rest)) = '\x7d' :: rest :=
        skipBlanks_newLine outer (by decide)
      simp only [List.isEmpty_nil, if_true]
      rw [readEntries_entry hname hvalue (by omega) before hend, if_pos rfl, putEntry_of_notMem hnew]
    | cons entry entries =>
      simp only [List.isEmpty_cons, Bool.false_eq_true, if_false, List.length_cons] at hsteps ⊢
      rw [List.cons_append,
        readEntries_entry hname hvalue (by omega) before (skipBlanks_cons (by decide)),
        if_neg (by decide), if_pos rfl, putEntry_of_notMem hnew,
        ih (List.cons_ne_nil _ _) (fun entry h => hbasic entry (List.mem_cons_of_mem _ h))
          (fun entry h => hvalues entry (List.mem_cons_of_mem _ h)) (by simpa using hnames) (by omega),
        List.append_assoc]
      rfl

theorem IsCaptions.readsBack {depth : Nat} {v : Json} (h : IsCaptions depth v) : ReadsBack depth v := by
  induction h with
  | text hs => exact readsBack_text _ hs
  | @table depth entries hnames hbasic _ ih =>
    intro level
    cases entries with
    | nil =>
      exact ⟨⟨'\x7b', ['\x7d'], by simp [write], by decide⟩, fun steps _ rest => by simp [write]; rfl⟩
    | cons entry entries =>
      have hwrite : (write level (.table (entry :: entries))).toList = '\x7b' ::
          ((writeEntries (level + 1) (entry :: entries)).toList ++
            ((newLine level).toList ++ ['\x7d'])) := by
        simp [write]
      rw [hwrite]
      refine ⟨⟨_, _, rfl, by decide⟩, fun steps hsteps rest => ?_⟩
      simp only [List.length_cons, List.length_append, List.cons_append, List.append_assoc,
        List.nil_append] at hsteps ⊢
      have hall : (([] ++ entry :: entries).map Prod.fst).Nodup := hnames
      have hshort : (writeEntries (level + 1) (entry :: entries)).toList.length ≤ steps := by omega
      have hentries := readEntries_write (List.cons_ne_nil entry entries) hbasic ih (level + 1) level
        hall hshort rest
      -- an entry starts with the quote of its name, so that the table is not empty
      obtain ⟨cs, hcs⟩ : ∃ cs, skipBlanks ((writeEntries (level + 1) (entry :: entries)).toList ++
          ((newLine level).toList ++ '\x7d' :: rest)) = '"' :: cs := by
        rw [toList_writeEntries, toList_writeText]
        exact ⟨_, by simpa using skipBlanks_newLine (level + 1) (by decide)⟩
      rw [hcs] at hentries
      rw [readValue]
      simp only [hcs]
      split
      · rename_i hempty
        exact absurd (List.cons.inj hempty).1 (by decide)
      · rw [hentries]
        rfl

/-- Captions are read as they were written. -/
theorem read_write {depth : Nat} {v : Json} (h : IsCaptions depth v) : read depth (write 0 v) = .ok v := by
  obtain ⟨⟨c, cs, hc, hblank⟩, hread⟩ := h.readsBack 0
  have hvalue := hread (2 * (write 0 v).toList.length + 1) (by omega) []
  rw [List.append_nil] at hvalue
  have hskip : skipBlanks (write 0 v).toList = (write 0 v).toList := by
    rw [hc]
    exact skipBlanks_cons hblank
  rw [read, hskip]
  exact bind_eq_ok_iff.2 ⟨_, hvalue, rfl⟩

end Json

theorem lookup_map {α ν β : Type} [BEq ν] [LawfulBEq ν] {name : α → ν} {value : α → β} {items : List α}
    (h : (items.map name).Nodup) {x : α} (hx : x ∈ items) :
    (items.map fun x => (name x, value x)).lookup (name x) = some (value x) := by
  induction items with
  | nil => cases hx
  | cons y items ih =>
    rw [List.map_cons, List.nodup_cons] at h
    rcases List.mem_cons.1 hx with rfl | hx
    · exact List.lookup_cons_self
    · have hne : name x ≠ name y := fun heq => h.1 (heq ▸ List.mem_map_of_mem hx)
      rw [List.map_cons, List.lookup_cons, beq_eq_false_iff_ne.2 hne]
      exact ih h.2 hx

namespace Settings

variable {files : Files}

theorem contents_written {v : Json} (h : Json.IsCaptions nestingLimit v) :
    contents? (some (Json.write 0 v)) = .ok (some v) := by
  rw [contents?, Option.map_some, Json.read_write h]

/-- Settings that are texts are laid over the built-in ones. -/
theorem all_written {entries : List (String × Json)}
    (hfile : files.settings = some (Json.write 0 (.table entries)))
    (h : Json.IsCaptions nestingLimit (.table entries)) :
    all files =
      .ok ((entries.map fun entry => .ofText entry.1 entry.2).foldl (fun t e => t.put e) defaults) := by
  rw [all, hfile, contents_written h]
  rfl

end Settings

namespace Files

/-- Keys that are no digits look as built in. -/
def PlainLooks (files : Files) : Prop :=
  ∀ k : Key, k.digit? = none → Settings.caption files k = .ok (.text k.glyph)

theorem caption_eq {files : Files} {keys : Json} (h : Settings.describe files (.text "keys") = .ok keys)
    {k : Key} (hk : k.digit? = none) :
    Settings.caption files k = .ok ((keys.get? k.name.toLower).getD (.text k.glyph)) := by
  cases k with
  | digit d => cases hk
  | _ => exact bind_eq_ok_iff.2 ⟨keys, h, rfl⟩

/-- Without captions, or where they are no JSON. -/
theorem plainLooks_of_none {files : Files} (h : Settings.contents? files.captions = .ok none) :
    files.PlainLooks := by
  have hkeys : Settings.describe files (.text "keys") = .ok (.table []) :=
    bind_eq_ok_iff.2 ⟨none, h, rfl⟩
  exact fun k hk => caption_eq hkeys hk

theorem names_nodup : (Key.all.map fun k => k.name.toLower).Nodup := by decide +kernel

theorem isBasic_keys (k : Key) (hk : k ∈ Key.all) :
    Json.IsBasic k.name.toLower ∧ Json.IsBasic k.glyph := by
  have hall : ∀ k ∈ Key.all, (k.name.toLower.toList.all fun c => c.toNat < 0x10000) ∧
      k.glyph.toList.all fun c => c.toNat < 0x10000 := by decide +kernel
  exact ⟨Json.isBasic_of_all (hall k hk).1, Json.isBasic_of_all (hall k hk).2⟩

theorem isBasic_settings (entry : String × String) (hentry : entry ∈ settingCaptions) :
    Json.IsBasic entry.1 ∧ Json.IsBasic entry.2 := by
  have hall : ∀ entry ∈ settingCaptions, (entry.1.toList.all fun c => c.toNat < 0x10000) ∧
      entry.2.toList.all fun c => c.toNat < 0x10000 := by decide +kernel
  exact ⟨Json.isBasic_of_all (hall entry hentry).1, Json.isBasic_of_all (hall entry hentry).2⟩

theorem isCaptions_keyCaptions (depth : Nat) : Json.IsCaptions (depth + 1) (.table keyCaptions) := by
  refine .table ?_ (fun entry hentry => ?_) fun entry hentry => ?_
  · rw [keyCaptions, List.map_map]
    exact names_nodup.sublist (List.filter_sublist.map _)
  all_goals
    obtain ⟨k, hk, rfl⟩ := List.mem_map.1 hentry
    have hbasic := isBasic_keys k (List.mem_of_mem_filter hk)
  · exact hbasic.1
  · exact .text hbasic.2

theorem isCaptions_captionTable (depth : Nat) : Json.IsCaptions (depth + 2) captionTable := by
  refine .table (by decide +kernel) (fun entry hentry => ?_) fun entry hentry => ?_
  all_goals rcases List.mem_append.1 hentry with hentry | hentry
  · obtain ⟨setting, hsetting, rfl⟩ := List.mem_map.1 hentry
    exact (isBasic_settings setting hsetting).1
  · obtain rfl := List.mem_singleton.1 hentry
    exact Json.isBasic_of_all (by decide)
  · obtain ⟨setting, hsetting, rfl⟩ := List.mem_map.1 hentry
    exact .text (isBasic_settings setting hsetting).2
  · obtain rfl := List.mem_singleton.1 hentry
    exact isCaptions_keyCaptions depth

/-- With the captions that a calculator comes with. -/
theorem plainLooks_of_shipped {files : Files} (h : files.captions = shipped.captions) :
    files.PlainLooks := by
  have hshipped : shipped.captions = some (Json.write 0 captionTable) := rfl
  have hcontents : Settings.contents? files.captions = .ok (some captionTable) := by
    rw [h, hshipped]
    exact Settings.contents_written (isCaptions_captionTable 983)
  have hkeys : Settings.describe files (.text "keys") = .ok (.table keyCaptions) :=
    bind_eq_ok_iff.2 ⟨_, hcontents, rfl⟩
  intro k hk
  have hmem : k ∈ Key.all.filter fun k => k.digit?.isNone :=
    List.mem_filter.2 ⟨List.mem_of_find?_eq_some (Key.ofNumber?_number k), by rw [hk]; rfl⟩
  have hlookup : keyCaptions.lookup k.name.toLower = some (.text k.glyph) :=
    lookup_map (names_nodup.sublist (List.filter_sublist.map _)) hmem
  rw [caption_eq hkeys hk, Json.get?, hlookup]
  rfl

end Files

end Reckoner
