import BytecodeCompiler.Proofs.Json.Compact
import BytecodeCompiler.Proofs.SourceMap.Indexed
import BytecodeCompiler.Proofs.SourceMap.Queries
import BytecodeCompiler.SourceMap.Json

-- Source maps that are written and read back. The text of a file is JSON without blanks, so reading
-- gives the value that was written. The entries of a map are in the order of their offsets, so
-- putting them in their places one after the other gives them back in that order. That is all that
-- matters, so any other way to write files does as well, if it reads back what it wrote.

namespace BytecodeCompiler

/-- What can be undone for each entry can be undone for a list. -/
theorem mapM_map_eq_some {α β : Type} {f : β → Option α} {g : α → β}
    (h : ∀ a, f (g a) = some a) (as : List α) : (as.map g).mapM f = some as := by
  induction as with
  | nil => rfl
  | cons a as ih => simp [h, ih]

namespace MapFile

open Json

/-! ## The text of a file -/

/-- A number as a JSON value. -/
def natJson (n : Nat) : Json := .number (natText n)

/-- A text as a JSON value. -/
def textJson (s : String) : Json := .string (s.toList.flatMap escapeChar)

/-- A member of a JSON object. -/
def memberJson (key : List Char) (j : Json) : List Char × Json := (key.flatMap escapeChar, j)

/-- What an entry says about its offset, as a JSON value. -/
def entryJson (e : Mapping) : Json :=
  .array ([e.file, e.line, e.colStart, e.colEnd].map fun n => natJson n.toNat)

/-- The file as a JSON value. -/
def json (f : MapFile) : Json :=
  .object [memberJson "version".toList (natJson f.version.toNat),
    memberJson "sources".toList (.array (f.sources.map textJson)),
    memberJson "mappings".toList (.object (f.mappings.entries.map fun e =>
      memberJson (natText e.offset.toNat) (entryJson e)))]

section Writes

variable {α : Type} {f : α → Json} {cs : α → List Char} (h : ∀ a, Writes (f a) (cs a))

include h

theorem writes_array_commas (as : List α) :
    Writes (.array (as.map f)) ('[' :: (commas (as.map cs) ++ [']'])) := by
  have hitems : ∀ a as, WritesItems ((a :: as).map f) (commas ((a :: as).map cs)) := by
    intro a as
    induction as generalizing a with
    | nil => exact .one (h a)
    | cons b as ih => exact .more (h a) (ih b)
  cases as with
  | nil => exact .emptyArray
  | cons a as => exact .array (hitems a as)

theorem writes_object_commas (key : α → List Char) (as : List α) :
    Writes (.object (as.map fun a => memberJson (key a) (f a)))
      ('\x7b' :: (commas (as.map fun a => quote (key a) ++ ':' :: cs a) ++ ['\x7d'])) := by
  have hmembers : ∀ a as, WritesMembers ((a :: as).map fun a => memberJson (key a) (f a))
      (commas ((a :: as).map fun a => quote (key a) ++ ':' :: cs a)) := by
    intro a as
    induction as generalizing a with
    | nil => exact .one (key a) (h a)
    | cons b as ih => exact .more (key a) (h a) (ih b)
  cases as with
  | nil => exact .emptyObject
  | cons a as => exact .object (hmembers a as)

end Writes

theorem writes_natJson (n : Nat) : Writes (natJson n) (natText n) := .nat n

theorem mappingText_eq (e : Mapping) :
    mappingText e = quote (natText e.offset.toNat) ++ ':' :: ('[' ::
      (commas ([e.file, e.line, e.colStart, e.colEnd].map fun n => natText n.toNat) ++ [']'])) := by
  rw [quote_append]
  unfold natText
  rw [escaped_toDigits]
  rfl

theorem toList_toJson (f : MapFile) :
    f.toJson.toList = '\x7b' :: (quote "version".toList ++ ':' :: natText f.version.toNat ++
      ',' :: (quote "sources".toList ++
        ':' :: '[' :: (commas (f.sources.map fun s => quote s.toList) ++ [']']) ++
      ',' :: (quote "mappings".toList ++
        ':' :: '\x7b' :: (commas (f.mappings.entries.map mappingText) ++ ['\x7d']))) ++
      ['\x7d']) := by
  have hversion : "\x7b\"version\":".toList = '\x7b' :: (quote "version".toList ++ [':']) := by
    decide
  have hsources : ",\"sources\":[".toList = ',' :: (quote "sources".toList ++ [':', '[']) := by
    decide
  have hmappings : "],\"mappings\":\x7b".toList =
      ']' :: ',' :: (quote "mappings".toList ++ [':', '\x7b']) := by decide
  have hend : "\x7d\x7d".toList = ['\x7d', '\x7d'] := by decide
  unfold toJson
  rw [String.toList_ofList, hversion, hsources, hmappings, hend]
  simp only [List.append_assoc, List.cons_append, List.nil_append]

/-- The text of a file is the file as a JSON value, without blanks. -/
theorem writes_json (f : MapFile) : Writes f.json f.toJson.toList := by
  have hsources := writes_array_commas (fun s : String => .text s.toList) f.sources
  have hentry : ∀ e : Mapping, Writes (entryJson e) _ := fun e =>
    writes_array_commas (fun n : UInt32 => writes_natJson n.toNat)
      [e.file, e.line, e.colStart, e.colEnd]
  have hmappings :=
    writes_object_commas hentry (fun e => natText e.offset.toNat) f.mappings.entries
  rw [toList_toJson, funext mappingText_eq]
  exact .object (.more "version".toList (writes_natJson f.version.toNat)
    (.more "sources".toList hsources (.one "mappings".toList hmappings)))

/-! ## The file of a text -/

theorem boundedNat?_natJson {n bound : Nat} (h : n < bound) :
    boundedNat? bound (natJson n) = some n := by
  simp [boundedNat?, natJson, natText, plainNat?_toDigits, h]

theorem word?_natJson (n : UInt32) : word? (natJson n.toNat) = some n := by
  simp [word?, boundedNat?_natJson n.toNat_lt]

theorem version?_natJson (n : UInt8) : version? (natJson n.toNat) = some n := by
  simp [version?, boundedNat?_natJson n.toNat_lt]

theorem sources?_textJson (names : List String) :
    sources? (.array (names.map textJson)) = some names := by
  refine mapM_map_eq_some (fun s => ?_) names
  simp [textJson, unescape?_escaped]

theorem mapping?_entryJson (e : Mapping) :
    mapping? (memberJson (natText e.offset.toNat) (entryJson e)).1 (entryJson e) = some e := by
  have hoffset : e.offset.toNat < 0x100000000 := e.offset.toNat_lt
  simp only [memberJson, natText, escaped_toDigits]
  simp [mapping?, entryJson, plainNat?_toDigits, word?_natJson, Option.filter_some, hoffset]

theorem mappings?_entryJson (es : List Mapping) :
    mappings? (.object (es.map fun e => memberJson (natText e.offset.toNat) (entryJson e))) =
      some (.ofEntries es) := by
  have hentries := mapM_map_eq_some (f := fun p : List Char × Json => mapping? p.1 p.2)
    (g := fun e => memberJson (natText e.offset.toNat) (entryJson e)) mapping?_entryJson es
  unfold mappings?
  simp only [hentries]
  rfl

theorem ofJsonValue?_members (version sources mappings : Json) :
    ofJsonValue? (.object [memberJson "version".toList version, memberJson "sources".toList sources,
      memberJson "mappings".toList mappings]) = ofParts? version sources mappings := by
  rfl

end MapFile

/-! ## Entries in order -/

namespace MappingTable

theorem insertMapping_of_last {e : Mapping} {es : List Mapping}
    (h : ∀ e' ∈ es, e'.offset < e.offset) : insertMapping e es = es ++ [e] := by
  induction es with
  | nil => rfl
  | cons first es ih =>
    obtain ⟨hfirst, hes⟩ := List.forall_mem_cons.mp h
    have hne : e.offset ≠ first.offset := Ne.symm (UInt32.ne_of_lt hfirst)
    rw [insertMapping, if_neg (UInt32.lt_asymm hfirst), if_neg hne, ih hes]
    rfl

/-- Entries that are put in their places in order are in that order. -/
theorem entries_foldl_insert (table : MappingTable) {es : List Mapping}
    (h : (table.entries ++ es).Pairwise fun e e' => e.offset < e'.offset) :
    (es.foldl insert table).entries = table.entries ++ es := by
  induction es generalizing table with
  | nil => simp
  | cons e es ih =>
    obtain ⟨-, -, hbefore⟩ := List.pairwise_append.mp h
    have hinsert : (table.insert e).entries = table.entries ++ [e] :=
      insertMapping_of_last fun e' he' => hbefore e' he' e List.mem_cons_self
    rw [List.foldl_cons, ih _ (by rwa [hinsert, List.append_assoc]), hinsert, List.append_assoc]
    rfl

theorem entries_ofEntries {es : List Mapping}
    (h : es.Pairwise fun e e' => e.offset < e'.offset) : (ofEntries es).entries = es :=
  entries_foldl_insert empty h

theorem ofEntries_entries (table : MappingTable) : ofEntries table.entries = table := by
  obtain ⟨es, h⟩ := table
  have hes := entries_ofEntries h
  generalize ofEntries es = table at hes
  cases hes
  rfl

end MappingTable

namespace MapFile

/-- The text of a file is read back as the file. -/
theorem ofJson?_toJson (f : MapFile) : ofJson? f.toJson = some f := by
  have hparse := (writes_json f).parse?
  unfold ofJson?
  rw [hparse]
  unfold json
  rw [Option.bind_some, ofJsonValue?_members]
  simp [ofParts?, version?_natJson, sources?_textJson, mappings?_entryJson,
    MappingTable.ofEntries_entries]

/-- A way to write files such that reading gives back what was written. -/
structure Format where
  write : MapFile → String
  read? : String → Option MapFile
  read?_write : ∀ f, read? (write f) = some f

/-- Files as JSON. -/
def Format.json : Format := ⟨toJson, ofJson?, ofJson?_toJson⟩

end MapFile

namespace SourceMap

/-- A map whose offsets go up is what its file holds. -/
theorem Increasing.toMap_toFile {m : SourceMap} (h : m.Increasing) : m.toFile.toMap = m := by
  have hentries : (MappingTable.ofEntries m.mappings.toList).entries = m.mappings.toList :=
    MappingTable.entries_ofEntries (h.imp UInt32.lt_iff_toNat_lt.mpr)
  simp [toFile, MapFile.toMap, hentries]

/-! ## Maps of offers -/

/-- An offset that is too large starts over, so the offsets go up whatever is offered. -/
theorem increasing_ofOffers (offers : List Offer) : (ofOffers offers).Increasing := by
  have hwrap : ∀ (m : SourceMap) (o : Offer),
      m.offer ⟨o.offset % 0x100000000, o.span, o.file⟩ = m.offer o := by
    intro m o
    have hoffset : UInt32.ofNat (o.offset % 0x100000000) = UInt32.ofNat o.offset :=
      UInt32.ofNat_mod_size
    simp [offer, add, hoffset]
  have hofOffers : ofOffers (offers.map fun o => ⟨o.offset % 0x100000000, o.span, o.file⟩) =
      ofOffers offers := by
    unfold ofOffers
    rw [List.foldl_map, funext₂ hwrap]
  rw [← hofOffers]
  refine (holds_ofOffers fun o ho => ?_).map_increasing
  obtain ⟨o, -, rfl⟩ := List.mem_map.mp ho
  exact Nat.mod_lt _ (by decide)

end SourceMap

namespace IndexedMap

/-- The text of a map in a format. The table is not written. -/
def writeIn (format : MapFile.Format) (x : IndexedMap) : String := format.write x.map.toFile

/-- The map that a text in a format holds, with its table made anew. -/
def readIn? (format : MapFile.Format) (text : String) : Option IndexedMap :=
  (format.read? text).map fun f => ofMap f.toMap

def toJson (x : IndexedMap) : String := x.map.toJson

/-- The map that a JSON text holds, with its table made anew. -/
def ofJson? (text : String) : Option IndexedMap := (SourceMap.ofJson? text).map ofMap

theorem ofJson?_eq_readIn? (text : String) : ofJson? text = readIn? .json text :=
  Option.map_map ofMap MapFile.toMap _

end IndexedMap

/-- Whatever was offered to a map, and in whatever format the map is written, its text is read back
as the same map. With its table made anew, the map answers all later calls as it does with the table
that it had. JSON without blanks is such a format. -/
theorem SourceMap.json_round_trip (offers : List Offer) :
    (∀ format : MapFile.Format,
      ∃ x, IndexedMap.readIn? format ((IndexedMap.ofOffers offers).writeIn format) = some x ∧
        x.map = ofOffers offers ∧
        ∀ calls, x.answers calls = (IndexedMap.ofOffers offers).answers calls ∧
          x.answers calls = (ofOffers offers).answers calls) ∧
    ofJson? (ofOffers offers).toJson = some (ofOffers offers) ∧
    (IndexedMap.ofOffers offers).map = ofOffers offers ∧
    ∃ x, IndexedMap.ofJson? (IndexedMap.ofOffers offers).toJson = some x ∧ x.map = ofOffers offers ∧
      ∀ calls, x.answers calls = (IndexedMap.ofOffers offers).answers calls ∧
        x.answers calls = (ofOffers offers).answers calls := by
  have hfile := (increasing_ofOffers offers).toMap_toFile
  obtain ⟨hmap, hstep⟩ := IndexedMap.inStep_ofOffers offers
  have hformat : ∀ format : MapFile.Format,
      ∃ x, IndexedMap.readIn? format ((IndexedMap.ofOffers offers).writeIn format) = some x ∧
        x.map = ofOffers offers ∧
        ∀ calls, x.answers calls = (IndexedMap.ofOffers offers).answers calls ∧
          x.answers calls = (ofOffers offers).answers calls := by
    intro format
    refine ⟨IndexedMap.ofMap (ofOffers offers), ?_, rfl, fun calls => ?_⟩
    · rw [IndexedMap.readIn?, IndexedMap.writeIn, hmap, format.read?_write, Option.map_some, hfile]
    · have hanew := (IndexedMap.inStep_ofMap (ofOffers offers)).answers calls
      rw [hstep.answers calls, hmap]
      exact ⟨hanew, hanew⟩
  refine ⟨hformat, ?_, hmap, ?_⟩
  · rw [ofJson?, toJson, MapFile.ofJson?_toJson, Option.map_some, hfile]
  · rw [IndexedMap.ofJson?_eq_readIn?]
    exact hformat .json

example : (SourceMap.ofOffers [⟨3, ⟨1, 2, 1, 3⟩, "a\"\x01é"⟩, ⟨9, ⟨1, 4, 5, 1⟩, "b"⟩]).toJson =
    "\x7b\"version\":1,\"sources\":[\"a\\\"\\u0001é\",\"b\"]," ++
      "\"mappings\":\x7b\"3\":[0,2,1,4],\"9\":[1,4,5,6]\x7d\x7d" := by
  decide

end BytecodeCompiler
