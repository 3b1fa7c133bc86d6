import Mathlib.Data.List.Nodup
import Reckoner.Proofs.Captions
/-!
What the program makes of its files. One that is missing or malformed has nothing to offer, and what is
built in counts; one that is a table offers its entries. A file that is JSON of another shape is not
passed over: to ask for a setting then fails, unless the file is an empty text or an array of entries,
and to ask for a caption fails in any case (`load_falls_back`).
-/
namespace Reckoner

namespace Json

variable {depth steps : Nat} {cs rest : List Char} {entries before : List (String × Json)}

theorem mem_names_putEntry {ν β : Type} [DecidableEq ν] {name n : ν} {value : β}
    {entries : List (ν × β)} :
    n ∈ (putEntry name value entries).map Prod.fst ↔ n = name ∨ n ∈ entries.map Prod.fst := by
  fun_induction putEntry name value entries with
  | case1 => simp
  | case2 => simp_all
  | case3 => simp_all; tauto

theorem nodup_putEntry {ν β : Type} [DecidableEq ν] {name : ν} {value : β} {entries : List (ν × β)}
    (h : (entries.map Prod.fst).Nodup) : ((putEntry name value entries).map Prod.fst).Nodup := by
  fun_induction putEntry name value entries with
  | case1 => exact List.nodup_singleton name
  | case2 => exact h
  | case3 name' value' entries hne ih =>
    rw [List.map_cons, List.nodup_cons] at h ⊢
    refine ⟨fun hmem => ?_, ih h.2⟩
    rcases mem_names_putEntry.1 hmem with heq | hmem
    · exact hne heq
    · exact h.1 hmem

/-- Reading more entries keeps the names distinct. -/
theorem nodup_of_readEntries (h : readEntries depth steps before cs = .ok (entries, rest))
    (hbefore : (before.map Prod.fst).Nodup) : (entries.map Prod.fst).Nodup := by
  induction steps generalizing before cs with
  | zero => cases h
  | succ steps ih =>
    unfold readEntries at h
    split at h
    · cases h
    · rename_i before _ _ _ n cs hn
      obtain rfl := Nat.succ.inj hn
      obtain ⟨⟨name, cs⟩, -, h⟩ := bind_eq_ok_iff.1 h
      dsimp only at h
      split at h
      · obtain ⟨⟨value, cs⟩, -, h⟩ := bind_eq_ok_iff.1 h
        dsimp only at h
        have hput : ((putEntry name value before).map Prod.fst).Nodup := nodup_putEntry hbefore
        split at h
        · cases h
          exact hput
        · exact ih h hput
        · cases h
      · cases h
    · cases h

theorem readNumber_ne_table (negative : Bool) :
    readNumber negative cs ≠ .ok (.table entries, rest) := by
  fun_cases readNumber negative cs <;> nofun

/-- No word or number is a table. -/
theorem readAtom_ne_table : readAtom cs ≠ .ok (.table entries, rest) := by
  intro h
  unfold readAtom at h
  iterate 6
    split at h
    · cases h
  split at h
  · exact readNumber_ne_table true h
  · exact readNumber_ne_table false h

theorem nodup_of_readValue (h : readValue depth steps cs = .ok (.table entries, rest)) :
    (entries.map Prod.fst).Nodup := by
  unfold readValue at h
  split at h
  · cases h
  · obtain ⟨⟨s, cs⟩, -, h⟩ := bind_eq_ok_iff.1 h
    cases h
  · split at h
    · cases h
    · split at h
      · cases h
      · obtain ⟨⟨items, cs⟩, -, h⟩ := bind_eq_ok_iff.1 h
        cases h
  · split at h
    · cases h
    · split at h
      · cases h
        exact List.nodup_nil
      · obtain ⟨⟨entries, cs⟩, hread, h⟩ := bind_eq_ok_iff.1 h
        cases h
        exact nodup_of_readEntries hread List.nodup_nil
  · exact absurd h readAtom_ne_table

/-- A table that is read has no name twice. -/
theorem nodup_of_read {text : String} (h : read depth text = .ok (.table entries)) :
    (entries.map Prod.fst).Nodup := by
  obtain ⟨⟨value, rest⟩, hread, h⟩ := bind_eq_ok_iff.1 h
  dsimp only at h
  split at h
  · cases h
    exact nodup_of_readValue hread
  · cases h

end Json

namespace Settings

variable {files : Files} {k : String} {v : Json} {entries : List (String × Json)}

/-! Laying settings over others. -/

theorem get?_put (e : Entry) (name : Name) (t : Table) :
    (t.put e).get? name = if e.name = name then some e.value else t.get? name := by
  induction t with
  | nil =>
    rw [Table.put, Table.get?, Table.get?, List.find?_cons]
    by_cases he : e.name = name <;> simp [he]
  | cons a t ih =>
    simp only [Table.get?] at ih
    rw [Table.put, Table.get?, Table.get?]
    by_cases ha : a.name = e.name
    · rw [if_pos ha, List.find?_cons, List.find?_cons, ha]
      by_cases he : e.name = name <;> simp [he]
    · rw [if_neg ha, List.find?_cons, List.find?_cons]
      by_cases hname : a.name = name
      · have he : e.name ≠ name := fun he => ha (hname.trans he.symm)
        simp [hname, he]
      · simp [hname, ih]

theorem get?_concat (t : Table) (e : Entry) (name : Name) :
    Table.get? name (t ++ [e]) = (t.get? name).or (if e.name = name then some e.value else none) := by
  rw [Table.get?, List.find?_append, Option.map_or, Table.get?, List.find?_singleton]
  by_cases he : e.name = name <;> simp [he]

/-- Of settings laid over others the last one of a name counts. -/
theorem get?_foldl_put (es t : Table) (name : Name) :
    (es.foldl (fun t e => t.put e) t).get? name = (Table.get? name es.reverse).or (t.get? name) := by
  induction es generalizing t with
  | nil => rfl
  | cons e es ih =>
    rw [List.foldl_cons, ih, get?_put, List.reverse_cons, get?_concat, Option.or_assoc]
    by_cases he : e.name = name <;> simp [he]

/-- In a table of distinct names it is the only one. -/
theorem get?_reverse_ofText (h : (entries.map Prod.fst).Nodup) :
    Table.get? (.text k) (entries.map fun entry => Entry.ofText entry.1 entry.2).reverse =
      entries.lookup k := by
  induction entries with
  | nil => rfl
  | cons entry entries ih =>
    rw [List.map_cons, List.nodup_cons] at h
    rw [List.map_cons, List.reverse_cons, get?_concat, ih h.2, List.lookup_cons]
    by_cases hk : k = entry.1
    · have hnone : entries.lookup k = none := by
        refine List.lookup_eq_none_iff.2 fun other hother => bne_iff_ne.2 fun heq => h.1 ?_
        rw [← hk, heq]
        exact List.mem_map_of_mem hother
      rw [hnone, hk]
      simp [Entry.ofText]
    · rw [beq_eq_false_iff_ne.2 hk]
      simp [Entry.ofText, Ne.symm hk]

/-! What a file is. -/

/-- What a file has to offer: nothing if it is missing or malformed, its entries if it is a table. -/
inductive Offers : Option String → List (String × Json) → Prop where
  | missing : Offers none []
  | malformed {text : String} (h : Json.read nestingLimit text = .error .malformed) :
      Offers (some text) []
  | table {text : String} {entries : List (String × Json)}
      (h : Json.read nestingLimit text = .ok (.table entries)) : Offers (some text) entries

/-- A value and the name it is given, as an item of an array. -/
def IsEntry (item : Json) : Prop :=
  ∃ name value entry, pairOf item = .ok (name, value) ∧ Entry.of name value = .ok entry

/-- What is no table and can be laid over settings as one. -/
inductive PassesForTable : Json → Prop where
  | text : PassesForTable (.text "")
  | array {items : List Json} (h : ∀ item ∈ items, IsEntry item) : PassesForTable (.array items)

/-- The built-in value of a setting. -/
def builtIn (k : String) : Json := (defaults.get? (.text k)).getD (.integer 0)

theorem exists_mapM_eq_ok_iff {ε α β : Type} {f : α → Except ε β} {items : List α} :
    (∃ ys, items.mapM f = .ok ys) ↔ ∀ x ∈ items, ∃ y, f x = .ok y := by
  induction items with
  | nil => exact iff_of_true ⟨[], rfl⟩ nofun
  | cons x items ih =>
    rw [List.forall_mem_cons, ← ih, List.mapM_cons]
    constructor
    · rintro ⟨ys, h⟩
      obtain ⟨y, hy, h⟩ := bind_eq_ok_iff.1 h
      obtain ⟨ys, hys, -⟩ := bind_eq_ok_iff.1 h
      exact ⟨⟨y, hy⟩, ys, hys⟩
    · rintro ⟨⟨y, hy⟩, ys, hys⟩
      exact ⟨y :: ys, bind_eq_ok_iff.2 ⟨y, hy, bind_eq_ok_iff.2 ⟨ys, hys, rfl⟩⟩⟩

theorem exists_entry_iff {item : Json} :
    (∃ e, (do
      let (name, value) ← pairOf item
      Entry.of name value) = .ok e) ↔ IsEntry item := by
  constructor
  · rintro ⟨e, h⟩
    obtain ⟨⟨name, value⟩, hpair, h⟩ := bind_eq_ok_iff.1 h
    exact ⟨name, value, e, hpair, h⟩
  · rintro ⟨name, value, e, hpair, h⟩
    exact ⟨e, bind_eq_ok_iff.2 ⟨(name, value), hpair, h⟩⟩

theorem exists_entriesOf_iff :
    (∃ es, entriesOf v = .ok es) ↔ (∃ entries, v = .table entries) ∨ PassesForTable v := by
  cases v with
  | table entries => exact iff_of_true ⟨_, rfl⟩ (.inl ⟨entries, rfl⟩)
  | array items =>
    rw [entriesOf, exists_mapM_eq_ok_iff]
    constructor
    · intro h
      exact .inr (.array fun item hitem => exists_entry_iff.1 (h item hitem))
    · rintro (⟨_, h⟩ | h)
      · cases h
      · cases h with
        | array h => exact fun item hitem => exists_entry_iff.2 (h item hitem)
  | text s =>
    by_cases hs : s = ""
    · subst hs
      exact iff_of_true ⟨[], rfl⟩ (.inr .text)
    · refine iff_of_false ?_ ?_
      · rintro ⟨es, h⟩
        rw [entriesOf, if_neg (by simpa using hs)] at h
        cases h
      · rintro (⟨_, h⟩ | h) <;> cases h
        exact hs rfl
  | _ =>
    refine iff_of_false ?_ ?_
    · rintro ⟨es, h⟩
      cases h
    · rintro (⟨_, h⟩ | h) <;> cases h

/-- What a request for a setting goes through. -/
theorem load_text (files : Files) (hk : k ≠ "all") :
    load files (.text k) = (do
      let content ← contents? files.settings
      let es ← entriesOf (content.getD (.table []))
      return (Table.get? (.text k) es.reverse).getD (builtIn k)) := by
  have hvalue : ∀ es : Table, ((es.foldl (fun t e => t.put e) defaults).get? (.text k)).getD
      (.integer 0) = (Table.get? (.text k) es.reverse).getD (builtIn k) := by
    intro es
    rw [get?_foldl_put, builtIn]
    cases Table.get? (.text k) es.reverse <;> rfl
  unfold load all
  simp only [bind_assoc, pure_bind]
  congr 1
  funext content
  congr 1
  funext es
  split
  · rename_i heq
    cases heq
    exact absurd rfl hk
  · rw [← hvalue es]
    rfl

theorem contents_eq_some_iff {file : Option String} :
    contents? file = .ok (some v) ↔ ∃ text, file = some text ∧ Json.read nestingLimit text = .ok v := by
  cases file with
  | none => exact iff_of_false nofun nofun
  | some text =>
    rw [contents?, Option.map_some]
    cases hread : Json.read nestingLimit text with
    | ok value => simp [hread]
    | error e => cases e <;> simp [hread]

theorem contents_of_offers {file : Option String} (h : Offers file entries) :
    ∃ content, contents? file = .ok content ∧ content.getD (.table []) = .table entries := by
  cases h with
  | missing => exact ⟨none, rfl, rfl⟩
  | malformed h => exact ⟨none, by rw [contents?, Option.map_some, h], rfl⟩
  | table h => exact ⟨some (.table entries), contents_eq_some_iff.2 ⟨_, rfl, h⟩, rfl⟩

theorem exists_offers_iff {file : Option String} :
    (∃ entries, Offers file entries) ↔
      ∃ content entries, contents? file = .ok content ∧ content.getD (.table []) = .table entries := by
  constructor
  · rintro ⟨entries, h⟩
    obtain ⟨content, hcontent, htable⟩ := contents_of_offers h
    exact ⟨content, entries, hcontent, htable⟩
  · rintro ⟨content, entries, hcontent, htable⟩
    cases content with
    | some v =>
      obtain ⟨text, rfl, hread⟩ := contents_eq_some_iff.1 hcontent
      exact ⟨entries, .table (hread.trans (congrArg _ htable))⟩
    | none =>
      cases file with
      | none => exact ⟨[], .missing⟩
      | some text =>
        rw [contents?, Option.map_some] at hcontent
        cases hread : Json.read nestingLimit text with
        | ok v =>
          rw [hread] at hcontent
          cases hcontent
        | error e =>
          rw [hread] at hcontent
          cases e with
          | malformed => exact ⟨[], .malformed hread⟩
          | tooManyDigits | tooDeep => cases hcontent

theorem nodup_of_offers {file : Option String} (h : Offers file entries) :
    (entries.map Prod.fst).Nodup := by
  cases h with
  | missing | malformed => exact List.nodup_nil
  | table h => exact Json.nodup_of_read h

/-- A setting is the file's, if that is a table with a value for it, and else the built-in one or zero; the
file may also be missing or malformed. -/
theorem load_of_offers (h : Offers files.settings entries) (hk : k ≠ "all") :
    load files (.text k) = .ok ((entries.lookup k).getD (builtIn k)) := by
  obtain ⟨content, hcontent, htable⟩ := contents_of_offers h
  rw [load_text files hk, hcontent]
  refine bind_eq_ok_iff.2 ⟨content, rfl, ?_⟩
  rw [htable, ← get?_reverse_ofText (nodup_of_offers h)]
  rfl

/-- What is laid over the built-in settings counts, the last of a name. -/
theorem load_of_entriesOf {text : String} {es : Table} (hfile : files.settings = some text)
    (hread : Json.read nestingLimit text = .ok v) (hes : entriesOf v = .ok es) (hk : k ≠ "all") :
    load files (.text k) = .ok ((Table.get? (.text k) es.reverse).getD (builtIn k)) := by
  have hcontent := contents_eq_some_iff.2 ⟨text, hfile, hread⟩
  rw [load_text files hk]
  exact bind_eq_ok_iff.2 ⟨some v, hcontent, bind_eq_ok_iff.2 ⟨es, hes, rfl⟩⟩

/-- Which settings files a setting is found with. -/
theorem exists_load_iff (hk : k ≠ "all") :
    (∃ x, load files (.text k) = .ok x) ↔
      (∃ entries, Offers files.settings entries) ∨
        ∃ text v, files.settings = some text ∧ Json.read nestingLimit text = .ok v ∧
          PassesForTable v := by
  constructor
  · rintro ⟨x, h⟩
    rw [load_text files hk] at h
    obtain ⟨content, hcontent, h⟩ := bind_eq_ok_iff.1 h
    obtain ⟨es, hes, -⟩ := bind_eq_ok_iff.1 h
    rcases exists_entriesOf_iff.1 ⟨es, hes⟩ with ⟨entries, htable⟩ | hpasses
    · exact .inl (exists_offers_iff.2 ⟨content, entries, hcontent, htable⟩)
    · cases content with
      | none => cases hpasses
      | some v =>
        obtain ⟨text, hfile, hread⟩ := contents_eq_some_iff.1 hcontent
        exact .inr ⟨text, v, hfile, hread, hpasses⟩
  · rintro (⟨entries, h⟩ | ⟨text, v, hfile, hread, hpasses⟩)
    · exact ⟨_, load_of_offers h hk⟩
    · obtain ⟨es, hes⟩ := exists_entriesOf_iff.2 (.inr hpasses)
      exact ⟨_, load_of_entriesOf hfile hread hes hk⟩

theorem describe_text (files : Files) (hk : k ≠ "all") :
    describe files (.text k) = (do
      match ← contents? files.captions with
      | none => return .table []
      | some (.table entries) => return (entries.lookup k).getD (.integer 0)
      | some _ => throw .notATable) := by
  unfold describe
  congr 1
  funext content
  split
  · rfl
  · rename_i heq
    cases heq
    exact absurd rfl hk
  · rename_i heq
    cases heq
    rfl
  · rename_i hname
    exact absurd rfl (hname k)
  · rename_i v hother _ _
    cases v with
    | table entries => exact absurd rfl (hother entries)
    | _ => rfl

/-- A description holds the names that the entry does which it is the value of. -/
theorem exists_describe_of_offers (h : Offers files.captions entries) (hk : k ≠ "all") :
    ∃ x, describe files (.text k) = .ok x ∧
      ∀ name, x.get? name = (entries.lookup k).bind fun v => v.get? name := by
  obtain ⟨content, hcontent, htable⟩ := contents_of_offers h
  rw [describe_text files hk, hcontent]
  cases content with
  | none =>
    cases htable
    exact ⟨.table [], rfl, fun name => rfl⟩
  | some v =>
    cases htable
    refine ⟨(entries.lookup k).getD (.integer 0), rfl, fun name => ?_⟩
    cases entries.lookup k <;> rfl

/-- Which captions files a description is found with. -/
theorem exists_describe_iff (hk : k ≠ "all") :
    (∃ x, describe files (.text k) = .ok x) ↔ ∃ entries, Offers files.captions entries := by
  constructor
  · rintro ⟨x, h⟩
    rw [describe_text files hk] at h
    obtain ⟨content, hcontent, h⟩ := bind_eq_ok_iff.1 h
    refine exists_offers_iff.2 ⟨content, ?_⟩
    split at h
    · exact ⟨[], hcontent, rfl⟩
    · exact ⟨_, hcontent, rfl⟩
    · cases h
  · rintro ⟨entries, h⟩
    obtain ⟨x, hx, -⟩ := exists_describe_of_offers h hk
    exact ⟨x, hx⟩

theorem caption_of_offers {key : Key} (hkey : key.digit? = none)
    (h : Offers files.captions entries) :
    caption files key =
      .ok (((entries.lookup "keys").bind fun keys => keys.get? key.name.toLower).getD
        (.text key.glyph)) := by
  obtain ⟨keys, hkeys, hget⟩ := exists_describe_of_offers (k := "keys") h (by decide)
  rw [Files.caption_eq hkeys hkey, hget]

theorem exists_caption_iff {key : Key} (hkey : key.digit? = none) :
    (∃ x, caption files key = .ok x) ↔ ∃ entries, Offers files.captions entries := by
  constructor
  · rintro ⟨x, h⟩
    have hdescribe : ∃ keys, describe files (.text "keys") = .ok keys := by
      cases key with
      | digit d => cases hkey
      | _ =>
        obtain ⟨keys, hkeys, -⟩ := bind_eq_ok_iff.1 h
        exact ⟨keys, hkeys⟩
    exact (exists_describe_iff (by decide)).1 hdescribe
  · rintro ⟨entries, h⟩
    exact ⟨_, caption_of_offers hkey h⟩

/-- What a setting, a description and the caption of a key come to, for all texts of the two files. A
file that is missing, malformed or a table breaks nothing: the setting is the file's, else the
built-in one, else zero, and the caption is the file's, else the built-in one. Settings that are JSON
of another shape are taken only if they are an empty text or an array of entries, and captions never. -/
theorem load_falls_back (files : Files) (k : String) (hk : k ≠ "all") :
    (∀ entries, Offers files.settings entries →
      load files (.text k) = .ok ((entries.lookup k).getD (builtIn k))) ∧
    ((∃ x, load files (.text k) = .ok x) ↔
      (∃ entries, Offers files.settings entries) ∨
        ∃ text v, files.settings = some text ∧ Json.read nestingLimit text = .ok v ∧
          PassesForTable v) ∧
    (∀ text v es, files.settings = some text → Json.read nestingLimit text = .ok v →
      entriesOf v = .ok es →
        load files (.text k) = .ok ((Table.get? (.text k) es.reverse).getD (builtIn k))) ∧
    ((∃ x, describe files (.text k) = .ok x) ↔ ∃ entries, Offers files.captions entries) ∧
    ∀ key : Key, key.digit? = none →
      (∀ entries, Offers files.captions entries →
        caption files key =
          .ok (((entries.lookup "keys").bind fun keys => keys.get? key.name.toLower).getD
            (.text key.glyph))) ∧
      ((∃ x, caption files key = .ok x) ↔ ∃ entries, Offers files.captions entries) :=
  ⟨fun _ h => load_of_offers h hk, exists_load_iff hk,
    fun _ _ _ hfile hread hes => load_of_entriesOf hfile hread hes hk, exists_describe_iff hk,
    fun _ hkey => ⟨fun _ h => caption_of_offers hkey h, exists_caption_iff hkey⟩⟩

/-- The file gives one setting and one caption of its own. -/
theorem load_falls_back_partly :
    let files : Files :=
      ⟨some "\x7b\"debug\": true\x7d", some "\x7b\"keys\": \x7b\"op_mul\": \"x\"\x7d\x7d", true⟩
    "debug" ≠ "all" ∧ load files (.text "debug") = .ok (.bool true) ∧
      caption files (.binary .times) = .ok (.text "x") ∧
      ∃ x, describe files (.text "debug") = .ok x := by
  intro files
  have hk : "debug" ≠ "all" := by decide
  have hsettings : Offers files.settings [("debug", .bool true)] := .table (by cbv)
  have hcaptions : Offers files.captions [("keys", .table [("op_mul", .text "x")])] :=
    .table (by cbv)
  obtain ⟨hload, -, -, hdescribe, hcaption⟩ := load_falls_back files "debug" hk
  refine ⟨hk, hload _ hsettings, ?_, hdescribe.2 ⟨_, hcaptions⟩⟩
  have hname : (Key.binary .times).name.toLower = "op_mul" := by decide +kernel
  rw [(hcaption (.binary .times) rfl).1 _ hcaptions, hname]
  rfl

/-- Settings that say null, or captions that are an empty array, are JSON and no table: they break what a file
that ends after its first brace leaves alone. -/
theorem load_null :
    load ⟨some "null", none, true⟩ (.text "debug") = .error .wrongType ∧
      describe ⟨none, some "[]", true⟩ (.text "keys") = .error .notATable ∧
      caption ⟨none, some "[]", true⟩ .opening = .error .notATable ∧
      load ⟨some "\x7b", none, true⟩ (.text "debug") = .ok (.bool false) := by
  have hdescribe : describe ⟨none, some "[]", true⟩ (.text "keys") = .error .notATable := by cbv
  have hbrace : Offers (some "\x7b") [] := .malformed (by cbv)
  have hdefault : builtIn "debug" = .bool false := by cbv
  refine ⟨by cbv, hdescribe, bind_eq_error_iff.2 (.inl hdescribe), ?_⟩
  rw [load_of_offers hbrace (by decide), hdefault]
  rfl

end Settings

end Reckoner
