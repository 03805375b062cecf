import FilterEditor.ConfigFile
import FilterEditor.Exchange.Mutation
import FilterEditor.Proofs.TreeExchange

/-!
# Mutations, paths and settings survive exchange

The text of a mutation, of a path and of settings is JSON that is read back (`Json.parse?_compact`),
so what remains is that the reader of a record undoes its writer.  A record that is written has
every field once, under its own name, and so all of them are found (`Json.fields?_object`).  A
number is read only if it fits a word of 64 bits, so the positions on a path must fit, and the
numbers among the settings.

A text that is read back tells what was written, so two mutations never share one.
-/

namespace FilterEditor

/-! ## Records -/

namespace Json

variable {members : List (String × Json)}

theorem named_cons (name : String) (m : String × Json) :
    named name (m :: members) =
      if m.1 = name then m.2 :: named name members else named name members := by
  rw [named, List.filterMap_cons]
  split <;> simp_all [named]

theorem named_eq_nil {name : String} (h : name ∉ members.map Prod.fst) :
    named name members = [] := by
  refine List.filterMap_eq_nil_iff.mpr fun m hm => if_neg fun hname => h ?_
  rw [← hname]
  exact List.mem_map_of_mem hm

theorem named_eq_singleton (hnodup : (members.map Prod.fst).Nodup) {m : String × Json}
    (hm : m ∈ members) : named m.1 members = [m.2] := by
  induction members with
  | nil => cases hm
  | cons first rest ih =>
    rw [List.map_cons, List.nodup_cons] at hnodup
    rw [named_cons]
    rcases List.mem_cons.mp hm with rfl | hrest
    · rw [if_pos rfl, named_eq_nil hnodup.1]
    · have hne : first.1 ≠ m.1 := fun heq => hnodup.1 (heq ▸ List.mem_map_of_mem hrest)
      rw [if_neg hne]
      exact ih hnodup.2 hrest

theorem fields?_object (hnodup : (members.map Prod.fst).Nodup) :
    (object members).fields? (members.map Prod.fst) = some (members.map Prod.snd) := by
  rw [fields?, mapM_eq_some_iff, List.map_map, List.map_map]
  refine List.map_congr_left fun m hm => ?_
  simp only [Function.comp_apply, required?, named_eq_singleton hnodup hm]

theorem optionalFields?_object (hnodup : (members.map Prod.fst).Nodup) :
    (object members).optionalFields? (members.map Prod.fst) =
      some (members.map fun m => some m.2) := by
  rw [optionalFields?, mapM_eq_some_iff, List.map_map, List.map_map]
  refine List.map_congr_left fun m hm => ?_
  simp only [Function.comp_apply, optional?, named_eq_singleton hnodup hm]

theorem natural?_ofNat {n : Nat} (h : n < Numeral.wordBound) : (ofNat n).natural? = some n :=
  if_pos h

end Json

/-! ## Paths -/

def Selector.FitsWord : Selector → Prop
  | index n => n < Numeral.wordBound
  | branch n => n < Numeral.wordBound
  | key _ => True

def Path.FitsWords (p : Path) : Prop :=
  ∀ s ∈ p, s.FitsWord

theorem Selector.ofJson?_toJson {s : Selector} (h : s.FitsWord) : ofJson? s.toJson = some s := by
  cases s with
  | index n => simp [toJson, ofJson?, Json.natural?_ofNat h]
  | branch n => simp [toJson, ofJson?, Json.natural?_ofNat h]
  | key k => simp [toJson, ofJson?, Json.string?]

theorem Path.ofJson?_toJson {p : Path} (h : p.FitsWords) : ofJson? p.toJson = some p :=
  mapM_map_eq_some fun s hs => Selector.ofJson?_toJson (h s hs)

/-! ## Mutations -/

namespace Mutation

variable {p : Path}

theorem readPlace?_record (make : Path → Mutation) (hp : p.FitsWords) :
    readPlace? make (.object [("path", p.toJson)]) = some (make p) := by
  have hfields : (Json.object [("path", p.toJson)]).fields? ["path"] = some [p.toJson] :=
    Json.fields?_object (by simp)
  rw [readPlace?, hfields]
  simp only [Path.ofJson?_toJson hp, Option.map_some]

theorem readPlaceAnd?_record {α : Type} {field : String} {read? : Json → Option α}
    (make : Path → α → Mutation) (hp : p.FitsWords) (hfield : "path" ≠ field) {j : Json} {a : α}
    (ha : read? j = some a) :
    readPlaceAnd? field read? make (.object [("path", p.toJson), (field, j)]) =
      some (make p a) := by
  have hfields : (Json.object [("path", p.toJson), (field, j)]).fields? ["path", field] =
      some [p.toJson, j] :=
    Json.fields?_object (by simpa using hfield)
  rw [readPlaceAnd?, hfields]
  simp only [Path.ofJson?_toJson hp, ha, Option.bind_some, Option.map_some]

/-- **The reader of mutations undoes the writer.** -/
theorem ofJson?_toJson {m : Mutation} (h : m.path.FitsWords) : ofJson? m.toJson = some m := by
  cases m with
  | setFilterValue p value =>
    simp only [toJson, ofJson?, reduceIte]
    exact readPlaceAnd?_record setFilterValue h (by decide) rfl
  | insertSibling p kind =>
    simp only [toJson, ofJson?, String.reduceEq, reduceIte]
    exact readPlaceAnd?_record insertSibling h (by decide) kind.ofName?_name
  | appendBranch p =>
    simp only [toJson, ofJson?, String.reduceEq, reduceIte]
    exact readPlace?_record appendBranch h
  | removeNode p =>
    simp only [toJson, ofJson?, String.reduceEq, reduceIte]
    exact readPlace?_record removeNode h
  | removeBranch p =>
    simp only [toJson, ofJson?, String.reduceEq, reduceIte]
    exact readPlace?_record removeBranch h
  | addProperty p key =>
    simp only [toJson, ofJson?, String.reduceEq, reduceIte]
    exact readPlaceAnd?_record addProperty h (by decide) rfl
  | renameProperty p newKey =>
    simp only [toJson, ofJson?, String.reduceEq, reduceIte]
    exact readPlaceAnd?_record renameProperty h (by decide) rfl

end Mutation

/-! ## Settings -/

structure Config.FitsWords (c : Config) : Prop where
  undoLevels : c.undoLevels < Numeral.wordBound
  outputIndent : c.outputIndent < Numeral.wordBound

theorem Config.ofJson?_toJson {c : Config} (h : c.FitsWords) : ofJson? c.toJson = some c := by
  have hfields : c.toJson.optionalFields?
      ["undoLevels", "freshKeyPrefix", "failurePlaceholder", "outputIndent"] =
      some [some (.ofNat c.undoLevels), some (.string c.freshKeyPrefix),
        some (.string c.failurePlaceholder), some (.ofNat c.outputIndent)] :=
    Json.optionalFields?_object (by simp)
  rw [ofJson?, hfields]
  simp [Json.readOr, Json.natural?_ofNat h.undoLevels, Json.natural?_ofNat h.outputIndent,
    Json.string?]

/-! ## Texts -/

theorem Json.bind_parse?_compact {α : Type} (read? : Json → Option α) (j : Json) :
    (Json.parse? j.compact).bind read? = read? j := by
  rw [Json.parse?_compact, Option.bind_some]

theorem Mutation.ofText?_toText {m : Mutation} (h : m.path.FitsWords) :
    ofText? m.toText = some m :=
  (Json.bind_parse?_compact ofJson? m.toJson).trans (ofJson?_toJson h)

theorem Path.ofText?_toText {p : Path} (h : p.FitsWords) : ofText? p.toText = some p :=
  (Json.bind_parse?_compact ofJson? p.toJson).trans (ofJson?_toJson h)

theorem Config.ofText?_toText {c : Config} (h : c.FitsWords) : ofText? c.toText = some c :=
  (Json.bind_parse?_compact ofJson? c.toJson).trans (ofJson?_toJson h)

/-- **Edits survive exchange.**  A mutation, a path and settings are read from the text they are
written as, so two mutations are never written as one text. -/
theorem edits_survive_exchange :
    (∀ m : Mutation, m.path.FitsWords → Mutation.ofText? m.toText = some m) ∧
    (∀ p : Path, p.FitsWords → Path.ofText? p.toText = some p) ∧
    (∀ c : Config, c.FitsWords → Config.parse c.toText = .ok c) ∧
    ∀ m m' : Mutation, m.path.FitsWords → m'.path.FitsWords → m ≠ m' → m.toText ≠ m'.toText := by
  refine ⟨fun m => Mutation.ofText?_toText, fun p => Path.ofText?_toText, fun c hc => ?_,
    fun m m' hm hm' hne htext => ?_⟩
  · rw [Config.parse, Config.ofText?_toText hc]
  · have hread : some m = some m' := by
      rw [← Mutation.ofText?_toText hm, htext, Mutation.ofText?_toText hm']
    exact hne (Option.some.inj hread)

/-- The greatest positions, keys with characters that are escaped, settings at the limits; and two
mutations of one path. -/
theorem edits_survive_exchange_limits :
    let p : Path := [.index (Numeral.wordBound - 1), .key "a\"\\/\n\u0001é𝄞",
      .branch (Numeral.wordBound - 1), .index 0]
    let c : Config := ⟨Numeral.wordBound - 1, "", "\t\u007f", Numeral.wordBound - 1⟩
    p.FitsWords ∧ c.FitsWords ∧
    Mutation.ofText? (Mutation.renameProperty p "\u2028").toText =
      some (.renameProperty p "\u2028") ∧
    Path.ofText? p.toText = some p ∧ Config.parse c.toText = .ok c ∧
    (Mutation.removeNode p).toText ≠ (Mutation.removeBranch p).toText := by
  intro p c
  have hp : p.FitsWords := by simp [p, Path.FitsWords, Selector.FitsWord, Numeral.wordBound]
  have hc : c.FitsWords := ⟨by decide, by decide⟩
  obtain ⟨hmutation, hpath, hconfig, hdistinct⟩ := edits_survive_exchange
  exact ⟨hp, hc, hmutation (.renameProperty p "\u2028") hp, hpath p hp, hconfig c hc,
    hdistinct (.removeNode p) (.removeBranch p) hp hp (by simp)⟩

end FilterEditor
