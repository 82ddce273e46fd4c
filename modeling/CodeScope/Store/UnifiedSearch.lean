import CodeScope.Library.KeyScan
import CodeScope.Library.RankedUnion
import CodeScope.Util.JsonTree

/-! # Unified search

`searchUnifiedJson` answers with a prefix search, fills up with a search for substrings, and then
with similar names. The similar names come as JSON, which is searched for keys and quotes. Only as
many of them are asked for as there is room, so that names that are known already cost room, and
what is read between two quotes keeps its escapes. -/

namespace CodeScope.Store

open JsonText Util CallTree RankedUnion

/-! ## The stages -/

/-- A row that a stage finds. -/
structure Node where
  id : Int64
  name : Bytes
  qualifiedName : Bytes
  filePath : Bytes
deriving DecidableEq

/-- A row of the semantic stage, with the text of its score. -/
structure Hit extends Node where
  score : Bytes
  score_plain : quote ∉ score

/-- A query and the full ranked answers of the three stages. An empty query matches nothing, and
    neither do trigrams when the query is too short or there is no index. -/
structure Stages where
  query : Bytes
  trigramAvailable : Bool
  codeFts : List Node
  nameTrgm : List Node
  semantic : List Hit
  codeFts_ids : (codeFts.map Node.id).Nodup
  nameTrgm_ids : (nameTrgm.map Node.id).Nodup
  semantic_ids : (semantic.map fun h => h.id).Nodup
  no_query : query = [] → codeFts = [] ∧ nameTrgm = [] ∧ semantic = []
  no_trigram : query.length < 3 ∨ trigramAvailable = false → nameTrgm = []

/-- The limit that a search works with. -/
def searchLimit (limit : ℤ) : ℕ := if limit ≤ 0 ∨ limit > 100 then 20 else limit.toNat

/-! ## The semantic answer -/

/-- The calls for a row's members. -/
def nodeCalls (n : Node) : List Util.Call :=
  [.key (lit "node_id"), .value (.integer n.id.toInt), .key (lit "name"), .value (.string n.name),
    .key (lit "qualified_name"), .value (.string n.qualifiedName),
    .key (lit "file_path"), .value (.string n.filePath)]

def hitJson (h : Hit) : Bytes :=
  (JsonWriter.calls {} (.beginObject :: (nodeCalls h.toNode ++
    [.key (lit "score"), .value (.raw h.score), .endObject]))).out

/-- What `searchSemanticJson` answers for its first hits. A project without vectors gets an empty
    list and a reason. -/
def searchSemanticJson (query : Bytes) (semantic : List Hit) (limit : ℤ) : Bytes :=
  if query = [] then lit "\x7b\"method\":\"semantic\",\"results\":[]\x7d"
  else
    let hits := semantic.take (searchLimit limit)
    lit "\x7b\"method\":\"semantic\",\"total\":" ++ integerText hits.length ++
      lit ",\"results\":[" ++ [comma].intercalate (hits.map hitJson) ++ lit "]\x7d"

/-! ## Merging it -/

/-- `grab`: what stands behind a key, between quotes. -/
def grab (key sem : Bytes) : Bytes :=
  match behind key sem with
  | none => []
  | some text =>
    let text := if text.head? = some quote then text.tail else text
    match splitFirst quote text with
    | none => []
    | some (value, _) => value

/-- The value behind a key, up to its comma or brace, and the text from there on. -/
def valueEnd (text : Bytes) : Option (Bytes × Bytes) :=
  match splitFirst comma text with
  | some r => some r
  | none => splitFirst closeBrace text

/-- The row whose id stands right before this text. -/
def grabNode (id : Int64) (sem : Bytes) : Node where
  id := id
  name := grab (keyText (lit "name")) sem
  qualifiedName := grab (keyText (lit "qualified_name")) sem
  filePath := grab (keyText (lit "file_path")) sem

/-- The loop over the semantic answer from a place on; every turn moves on, so that as many turns
    as there are bytes are enough. -/
def mergeSemantic (limit : ℕ) : ℕ → List Node → Bytes → List Node
  | 0, results, _ => results
  | turns + 1, results, sem =>
    if limit ≤ results.length then results
    else
      match behind (keyText (lit "node_id")) sem with
      | none => results
      | some text =>
        match valueEnd text with
        | none => results
        | some (value, rest) =>
          match stoll value with
          | none => mergeSemantic limit turns results rest
          | some id =>
            if id ∈ results.map Node.id then mergeSemantic limit turns results rest
            else mergeSemantic limit turns (results ++ [grabNode id rest]) rest

/-! ## The search -/

/-- The rows of the first two stages. -/
def indexedResults (s : Stages) (limit : ℕ) : List Node :=
  let results := s.codeFts.take limit
  if results.length < limit ∧ 3 ≤ s.query.length ∧ s.trigramAvailable = true then
    appendNew Node.id limit results (s.nameTrgm.take limit)
  else results

/-- `results` at the end of the three stages. -/
def unifiedResults (s : Stages) (limit : ℕ) : List Node :=
  let results := indexedResults s limit
  if results.length < limit then
    let sem := searchSemanticJson s.query s.semantic (limit - results.length)
    mergeSemantic limit sem.length results sem
  else results

def nodeJson (n : Node) : Bytes :=
  (JsonWriter.calls {} (.beginObject :: (nodeCalls n ++ [.endObject]))).out

def searchUnifiedJson (s : Stages) (limit : ℤ) : Bytes :=
  if s.query = [] then lit "\x7b\"method\":\"legacy_fts\",\"results\":[]\x7d"
  else lit "\x7b\"method\":\"legacy_fts\",\"results\":[" ++
    [comma].intercalate ((unifiedResults s (searchLimit limit)).map nodeJson) ++ lit "]\x7d"

/-! ## The ranked union -/

/-- The first rows of the stages' answers, end to end, every id once. -/
def rankedUnion (s : Stages) (limit : ℕ) : List Node :=
  union Node.id limit (s.codeFts ++ s.nameTrgm ++ s.semantic.map Hit.toNode)

def nodeValue (n : Node) : Value :=
  .object [(lit "node_id", .integer n.id.toInt), (lit "name", .string n.name),
    (lit "qualified_name", .string n.qualifiedName), (lit "file_path", .string n.filePath)]

/-- The text is a JSON document that lists these rows. -/
def Lists (text : Bytes) (rows : List Node) : Prop :=
  parse text = some (.object [(lit "method", .string (lit "legacy_fts")),
    (lit "results", .array (rows.map nodeValue))])

/-- The ids that the first two stages find. -/
def knownIds (s : Stages) : Finset Int64 := ((s.codeFts ++ s.nameTrgm).map Node.id).toFinset

/-- The room that they leave. -/
def room (s : Stages) (limit : ℕ) : ℕ := limit - (knownIds s).card

/-- A byte that JSON has as it is. -/
def isVerbatim (c : UInt8) : Bool := c ≠ quote && c ≠ backslash && 0x20 ≤ c

/-- None of the texts of a row has a byte that is escaped. -/
def Verbatim (n : Node) : Prop :=
  n.name.all isVerbatim ∧ n.qualifiedName.all isVerbatim ∧ n.filePath.all isVerbatim

/-- The semantic hits that are asked for are new, unless nothing new follows them, and the new ones
    among them have no byte that is escaped. -/
structure SemanticFits (s : Stages) (limit : ℕ) : Prop where
  new : (∀ h ∈ s.semantic.take (room s limit), h.id ∉ knownIds s) ∨
    ∀ h ∈ s.semantic.drop (room s limit), h.id ∈ knownIds s
  verbatim : ∀ h ∈ s.semantic.take (room s limit), h.id ∉ knownIds s → Verbatim h.toNode

/-! ## The texts -/

def nodeMembers (n : Node) : List (Bytes × CallTree) :=
  [(lit "node_id", .scalar (.integer n.id.toInt)), (lit "name", .scalar (.string n.name)),
    (lit "qualified_name", .scalar (.string n.qualifiedName)),
    (lit "file_path", .scalar (.string n.filePath))]

theorem calls_out (t : CallTree) : (JsonWriter.calls {} (CallTree.callsOf t)).out = render t := by
  show (JsonWriter.calls (JsonWriter.reset {}) (CallTree.callsOf t)).out = render t
  rw [calls_tree]
  rfl

theorem nodeJson_eq (n : Node) : nodeJson n = render (.object (nodeMembers n)) := by
  have hcalls : .beginObject :: (nodeCalls n ++ [.endObject]) =
      CallTree.callsOf (.object (nodeMembers n)) := by
    simp [nodeCalls, nodeMembers, CallTree.callsOf, callsOfMembers]
  rw [nodeJson, hcalls, calls_out]

theorem hitJson_eq (h : Hit) : hitJson h = render (.object (nodeMembers h.toNode ++
    [(lit "score", .scalar (.raw h.score))])) := by
  have hcalls : .beginObject :: (nodeCalls h.toNode ++
      [.key (lit "score"), .value (.raw h.score), .endObject]) =
      CallTree.callsOf (.object (nodeMembers h.toNode ++
        [(lit "score", .scalar (.raw h.score))])) := by
    simp [nodeCalls, nodeMembers, CallTree.callsOf, callsOfMembers]
  rw [hitJson, hcalls, calls_out]

/-- The document that lists the rows. -/
def unifiedDocument (rows : List Node) : CallTree :=
  .object [(lit "method", .scalar (.string (lit "legacy_fts"))),
    (lit "results", .array (rows.map fun n => .object (nodeMembers n)))]

theorem renderItems_eq (ts : List CallTree) :
    renderItems ts = [comma].intercalate (ts.map render) := by
  induction ts with
  | nil => rfl
  | cons t ts ih =>
      cases ts with
      | nil => simp [renderItems]
      | cons u us =>
          rw [renderItems, ih, List.map_cons, List.map_cons, List.map_cons,
            List.intercalate_cons_cons]
          simp

theorem render_unifiedDocument (rows : List Node) : render (unifiedDocument rows) =
    lit "\x7b\"method\":\"legacy_fts\",\"results\":[" ++
      [comma].intercalate (rows.map nodeJson) ++ lit "]\x7d" := by
  have hrows : (rows.map fun n => CallTree.object (nodeMembers n)).map render =
      rows.map nodeJson := by
    rw [List.map_map]
    exact List.map_congr_left fun n _ => (nodeJson_eq n).symm
  rw [unifiedDocument, render, renderMembers, renderMembers, render, render, renderItems_eq, hrows]
  have hopen : lit "\x7b\"method\":\"legacy_fts\",\"results\":[" =
      openBrace :: (JsonWriter.escapedString (lit "method") ++ colon ::
        (Scalar.text (.string (lit "legacy_fts")) ++ comma ::
          (JsonWriter.escapedString (lit "results") ++ [colon, openBracket]))) := by
    decide
  have hclose : lit "]\x7d" = [closeBracket, closeBrace] := by decide
  rw [hopen, hclose]
  simp

theorem wellFormed_unifiedDocument (rows : List Node) :
    WellFormedCalls (CallTree.callsOf (unifiedDocument rows)) := by
  have hitems : WellFormedCalls (callsOfItems
      (rows.map fun n => CallTree.object (nodeMembers n))) := by
    induction rows with
    | nil => simp [callsOfItems, WellFormedCalls]
    | cons n rows ih =>
        rw [List.map_cons, callsOfItems, wellFormedCalls_append]
        refine ⟨?_, ih⟩
        simp [nodeMembers, CallTree.callsOf, callsOfMembers, WellFormedCalls, Util.Call.WellFormed]
  simp only [unifiedDocument, CallTree.callsOf, callsOfMembers, wellFormedCalls_cons,
    wellFormedCalls_append, List.cons_append, List.nil_append]
  simp only [hitems]
  simp [WellFormedCalls, Util.Call.WellFormed]

theorem nodeValue_injective : Function.Injective nodeValue := by
  intro m n h
  simp only [nodeValue, Value.object.injEq, List.cons.injEq, Prod.mk.injEq, Value.integer.injEq,
    Value.string.injEq, true_and, and_true] at h
  obtain ⟨hid, hname, hqualified, hpath⟩ := h
  cases m
  cases n
  simp only [Node.mk.injEq]
  exact ⟨Int64.toInt_inj.mp hid, hname, hqualified, hpath⟩

/-- **A document lists its own rows and no others.** -/
theorem lists_render_iff {rows rows' : List Node} :
    Lists (render (unifiedDocument rows)) rows' ↔ rows = rows' := by
  have hvalue : toValue (unifiedDocument rows) =
      .object [(lit "method", .string (lit "legacy_fts")),
        (lit "results", .array (rows.map nodeValue))] := by
    have hitems : toValues (rows.map fun n => CallTree.object (nodeMembers n)) =
        rows.map nodeValue := by
      induction rows with
      | nil => rfl
      | cons n rows ih =>
          rw [List.map_cons, toValues, ih]
          rfl
    simp [unifiedDocument, toValue, toMembers, Scalar.toValue, hitems]
  rw [Lists, parse_render (wellFormed_unifiedDocument rows), hvalue]
  constructor
  · intro h
    simp only [Option.some.injEq, Value.object.injEq, List.cons.injEq, Prod.mk.injEq,
      Value.array.injEq, true_and, and_true] at h
    exact nodeValue_injective.list_map h
  · rintro rfl
    rfl

/-! ## Reading a hit -/

/-- No escape but that of a quote has a quote. -/
theorem quote_not_mem_escapeByte {c : UInt8} (h : c ≠ quote) : quote ∉ escapeByte c := by
  have hhex : ∀ d < 16, hexDigit d ≠ quote := by decide
  have hlow := hhex (c.toNat % 16) (Nat.mod_lt _ (by omega))
  unfold escapeByte
  rw [if_neg h]
  split_ifs with hb hn hr ht hcontrol
  · decide
  · decide
  · decide
  · decide
  · have hlt : c.toNat < 0x20 := hcontrol
    have hhigh := hhex (c.toNat / 16) (by omega)
    simp [hhigh.symm, hlow.symm]
    decide
  · simpa using Ne.symm h

theorem inside_jsonEscapeString (v : Bytes) : Inside (jsonEscapeString v) := by
  induction v with
  | nil => exact .nil
  | cons c v ih =>
      rw [jsonEscapeString, List.flatMap_cons]
      apply Inside.append _ ih
      by_cases hquote : c = quote
      · rw [escapeByte, if_pos hquote]
        exact .escape .nil
      · exact .of_not_mem (quote_not_mem_escapeByte hquote)

/-- The text of a hit behind its id. -/
def hitFields (h : Hit) : Bytes :=
  comma :: (keyText (lit "name") ++ quote :: (jsonEscapeString h.name ++ quote ::
    comma :: (keyText (lit "qualified_name") ++ quote :: (jsonEscapeString h.qualifiedName ++
      quote :: comma :: (keyText (lit "file_path") ++ quote :: (jsonEscapeString h.filePath ++
        quote :: comma :: (keyText (lit "score") ++ (h.score ++ [closeBrace]))))))))

theorem hitJson_text (h : Hit) : hitJson h =
    openBrace :: (keyText (lit "node_id") ++ (integerText h.id.toInt ++ hitFields h)) := by
  have hkey : ∀ name ∈ [lit "node_id", lit "name", lit "qualified_name", lit "file_path",
      lit "score"], JsonWriter.escapedString name ++ [colon] = keyText name := by
    decide
  have hid := hkey (lit "node_id") (by simp)
  have hname := hkey (lit "name") (by simp)
  have hqualified := hkey (lit "qualified_name") (by simp)
  have hpath := hkey (lit "file_path") (by simp)
  have hscore := hkey (lit "score") (by simp)
  rw [hitJson_eq]
  simp only [nodeMembers, List.cons_append, List.nil_append, render, renderMembers, Scalar.text,
    JsonWriter.escapedString, List.isEmpty_cons, List.isEmpty_nil, Bool.false_eq_true, if_false,
    if_true, List.append_nil, List.append_assoc, hitFields, ← hid, ← hname, ← hqualified, ← hpath,
    ← hscore]

section Fields

variable {name : Bytes} (h : Hit) (t : Bytes)

/-- **No key but those of a hit is found in it.** -/
theorem behind_hitFields (hname : PlainName name) (h₁ : name ≠ lit "name")
    (h₂ : name ≠ lit "qualified_name") (h₃ : name ≠ lit "file_path") (h₄ : name ≠ lit "score") :
    behind (keyText name) (hitFields h ++ t) = behind (keyText name) t := by
  have hscore : ∀ d ∈ h.score ++ [closeBrace], (keyText name).head? ≠ some d := by
    intro d hd he
    obtain rfl := Option.some.inj he
    rcases List.mem_append.mp hd with hd | hd
    · exact h.score_plain hd
    · exact absurd (List.mem_singleton.mp hd) (by decide)
  simp only [hitFields, List.cons_append, List.append_assoc]
  rw [behind_comma, behind_otherKey hname (by decide) h₁,
    behind_string (inside_jsonEscapeString _) hname, behind_comma,
    behind_otherKey hname (by decide) h₂, behind_string (inside_jsonEscapeString _) hname,
    behind_comma, behind_otherKey hname (by decide) h₃,
    behind_string (inside_jsonEscapeString _) hname, behind_comma,
    behind_otherKey hname (by decide) h₄]
  have hrest := behind_stretch (t := t) hscore (List.cons_ne_nil _ _)
  simpa using hrest

/-- The part of a string's text that is read. -/
def unquoted (v : Bytes) : Bytes := (jsonEscapeString v).takeWhile (· ≠ quote)

theorem grab_found {sem v u : Bytes} (hfound : behind (keyText name) sem =
    some (quote :: (jsonEscapeString v ++ quote :: u))) :
    grab (keyText name) sem = unquoted v := by
  have hmem : quote ∈ jsonEscapeString v ++ quote :: u := by simp
  have htake := takeWhile_append_cons (jsonEscapeString v) u quote
  rw [grab, hfound]
  simp only [List.head?_cons, if_true, List.tail_cons, splitFirst, if_pos hmem, htake]
  rfl

/-- The row that is read for a hit. -/
def readNode (h : Hit) : Node :=
  ⟨h.id, unquoted h.name, unquoted h.qualifiedName, unquoted h.filePath⟩

theorem grabNode_hitFields : grabNode h.id (hitFields h ++ t) = readNode h := by
  have hname : grab (keyText (lit "name")) (hitFields h ++ t) = unquoted h.name := by
    simp only [hitFields, List.cons_append, List.append_assoc]
    apply grab_found
    rw [behind_comma, behind_keyText]
  have hqualified : grab (keyText (lit "qualified_name")) (hitFields h ++ t) =
      unquoted h.qualifiedName := by
    simp only [hitFields, List.cons_append, List.append_assoc]
    apply grab_found
    rw [behind_comma, behind_otherKey (by decide) (by decide) (by decide),
      behind_string (inside_jsonEscapeString _) (by decide), behind_comma, behind_keyText]
  have hpath : grab (keyText (lit "file_path")) (hitFields h ++ t) = unquoted h.filePath := by
    simp only [hitFields, List.cons_append, List.append_assoc]
    apply grab_found
    rw [behind_comma, behind_otherKey (by decide) (by decide) (by decide),
      behind_string (inside_jsonEscapeString _) (by decide), behind_comma,
      behind_otherKey (by decide) (by decide) (by decide),
      behind_string (inside_jsonEscapeString _) (by decide), behind_comma, behind_keyText]
  rw [grabNode, hname, hqualified, hpath]
  rfl

end Fields

/-! ## Reading the answer -/

/-- The end of an answer, from a hit's comma on. -/
def hitsFrom (hits : List Hit) : Bytes :=
  hits.flatMap (fun h => comma :: hitJson h) ++ lit "]\x7d"

theorem behind_end : behind (keyText (lit "node_id")) (lit "]\x7d") = none := by decide

/-- One turn of the loop reads one hit. -/
theorem mergeSemantic_run (limit : ℕ) (hits : List Hit) {turns : ℕ} {results : List Node}
    {sem : Bytes} (hturns : hits.length ≤ turns)
    (hsem : behind (keyText (lit "node_id")) sem =
      behind (keyText (lit "node_id")) (hitsFrom hits)) :
    mergeSemantic limit turns results sem =
      appendNew Node.id limit results (hits.map readNode) := by
  induction hits generalizing turns results sem with
  | nil =>
      cases turns with
      | zero => rfl
      | succ turns =>
          have hnone : behind (keyText (lit "node_id")) sem = none := hsem.trans behind_end
          rw [mergeSemantic, hnone, List.map_nil, appendNew]
          exact ite_self results
  | cons h hits ih =>
      obtain ⟨turns, rfl⟩ : ∃ m, turns = m + 1 := ⟨turns - 1, by simp at hturns; omega⟩
      have hturns' : hits.length ≤ turns := by
        rw [List.length_cons] at hturns
        omega
      have hfound : behind (keyText (lit "node_id")) sem =
          some (integerText h.id.toInt ++ (hitFields h ++ hitsFrom hits)) := by
        have hopen : ¬ keyText (lit "node_id") <+: openBrace ::
            (keyText (lit "node_id") ++
              (integerText h.id.toInt ++ (hitFields h ++ hitsFrom hits))) := by
          rw [keyText, List.cons_prefix_cons]
          exact fun he => absurd he.1 (by decide)
        rw [hsem, hitsFrom, List.flatMap_cons, List.cons_append, List.cons_append, behind_comma,
          hitJson_text]
        simp only [List.cons_append, List.append_assoc]
        rw [behind_skip (by simpa [hitsFrom] using hopen), behind_keyText, hitsFrom]
      -- The id ends at the comma behind it, since an integer has none.
      have hvalue : valueEnd (integerText h.id.toInt ++ (hitFields h ++ hitsFrom hits)) =
          some (integerText h.id.toInt, hitFields h ++ hitsFrom hits) := by
        have hsplit := splitFirst_append (t := (hitFields h).tail ++ hitsFrom hits)
          (not_mem_integerText (c := comma) (i := h.id.toInt) (by decide) (by decide))
        rw [valueEnd]
        rw [show integerText h.id.toInt ++ (hitFields h ++ hitsFrom hits) =
          integerText h.id.toInt ++ comma :: ((hitFields h).tail ++ hitsFrom hits) from rfl, hsplit]
        rfl
      -- From there on the next id is the one of the next hit, whatever the fields say.
      have hrest : behind (keyText (lit "node_id")) (hitFields h ++ hitsFrom hits) =
          behind (keyText (lit "node_id")) (hitsFrom hits) :=
        behind_hitFields h _ (by decide) (by decide) (by decide) (by decide) (by decide)
      rw [mergeSemantic, hfound]
      simp only [hvalue, stoll_integerText]
      have hid : (readNode h).id = h.id := rfl
      rw [grabNode_hitFields, List.map_cons, appendNew, hid]
      by_cases hfull : limit ≤ results.length
      · rw [if_pos hfull, if_pos hfull]
      · rw [if_neg hfull, if_neg hfull]
        by_cases hseen : h.id ∈ results.map Node.id
        · rw [if_pos hseen, if_pos hseen, ih hturns' hrest]
        · rw [if_neg hseen, if_neg hseen, ih hturns' hrest]

theorem intercalate_hits (h : Hit) (hits : List Hit) :
    [comma].intercalate ((h :: hits).map hitJson) =
      hitJson h ++ hits.flatMap fun h => comma :: hitJson h := by
  induction hits generalizing h with
  | nil => simp
  | cons g hits ih =>
      rw [List.map_cons, List.map_cons, List.intercalate_cons_cons, ← List.map_cons, ih,
        List.flatMap_cons]
      simp

/-- The search for an id passes over everything in front of the first hit. -/
theorem searchSemanticJson_text {query : Bytes} (hquery : query ≠ []) (semantic : List Hit)
    {limit : ℤ} {n : ℕ} (hlimit : searchLimit limit = n) :
    behind (keyText (lit "node_id")) (searchSemanticJson query semantic limit) =
      behind (keyText (lit "node_id")) (hitsFrom (semantic.take n)) := by
  have hjoin : ∀ hits : List Hit,
      behind (keyText (lit "node_id"))
        ([comma].intercalate (hits.map hitJson) ++ lit "]\x7d") =
      behind (keyText (lit "node_id")) (hitsFrom hits) := by
    intro hits
    cases hits with
    | nil => rfl
    | cons h hits =>
        rw [intercalate_hits, hitsFrom, List.flatMap_cons]
        simp only [List.cons_append, List.append_assoc]
        rw [behind_comma]
  have hopen : lit "\x7b\"method\":\"semantic\",\"total\":" =
      openBrace :: (keyText (lit "method") ++ quote :: (lit "semantic" ++ quote ::
        comma :: keyText (lit "total"))) := by
    decide
  have hresults : lit ",\"results\":[" = comma :: (keyText (lit "results") ++ [openBracket]) := by
    decide
  have hname : PlainName (lit "node_id") := by decide
  have htotal : ∀ i : ℤ, ∀ d ∈ integerText i, (keyText (lit "node_id")).head? ≠ some d := by
    intro i d hd he
    obtain rfl := Option.some.inj he
    exact not_mem_integerText (by decide) (by decide) hd
  rw [searchSemanticJson, if_neg hquery, hlimit]
  simp only [hopen, hresults, List.cons_append, List.append_assoc, List.nil_append]
  rw [behind_byte (by decide : openBrace ≠ quote), behind_otherKey hname (by decide) (by decide),
    behind_string (.of_not_mem (by decide)) hname, behind_comma,
    behind_otherKey hname (by decide) (by decide),
    behind_stretch (htotal _) (List.cons_ne_nil _ _), behind_comma,
    behind_otherKey hname (by decide) (by decide),
    behind_byte (by decide : openBracket ≠ quote), hjoin]

/-- There are enough turns. -/
theorem length_le_searchSemanticJson {query : Bytes} (hquery : query ≠ []) (semantic : List Hit)
    {limit : ℤ} {n : ℕ} (hlimit : searchLimit limit = n) :
    (semantic.take n).length ≤ (searchSemanticJson query semantic limit).length := by
  have hmore : ∀ hits : List Hit,
      hits.length ≤ (hits.flatMap fun h => comma :: hitJson h).length := by
    intro hits
    induction hits with
    | nil => exact Nat.zero_le _
    | cons h hits ih =>
        rw [List.flatMap_cons, List.length_append, List.length_cons, List.length_cons]
        omega
  have hjoin : ∀ hits : List Hit,
      hits.length ≤ ([comma].intercalate (hits.map hitJson)).length := by
    intro hits
    cases hits with
    | nil => exact Nat.zero_le _
    | cons h hits =>
        have htail := hmore hits
        rw [intercalate_hits, List.length_append, hitJson_text, List.length_cons, List.length_cons]
        omega
  have hlength := hjoin (semantic.take n)
  rw [searchSemanticJson, if_neg hquery, hlimit]
  simp only [List.length_append]
  omega

/-! ## What a field keeps -/

theorem quote_not_mem_unquoted (v : Bytes) : quote ∉ unquoted v := by
  intro h
  have hne := List.mem_takeWhile_imp h
  simp at hne

theorem escapeByte_of_verbatim {c : UInt8} (h : isVerbatim c = true) : escapeByte c = [c] := by
  simp only [isVerbatim, Bool.and_eq_true, decide_eq_true_eq] at h
  obtain ⟨⟨hquote, hbackslash⟩, hcontrol⟩ := h
  have hother : ∀ d : UInt8, d < 0x20 → c ≠ d := by
    rintro d hd rfl
    exact absurd hd (by simpa using hcontrol)
  rw [escapeByte, if_neg hquote, if_neg hbackslash, if_neg (hother 0x0A (by decide)),
    if_neg (hother 0x0D (by decide)), if_neg (hother 0x09 (by decide)),
    if_neg (by simpa using hcontrol)]

theorem length_escapeByte {c : UInt8} (h : isVerbatim c = false) : 2 ≤ (escapeByte c).length := by
  unfold escapeByte
  split_ifs with hquote hbackslash hn hr ht hcontrol
  · simp
  · simp
  · simp
  · simp
  · simp
  · simp
  · have hle : 0x20 ≤ c := UInt8.not_lt.mp hcontrol
    simp [isVerbatim, hquote, hbackslash, hle] at h

theorem jsonEscapeString_length_iff (v : Bytes) :
    (jsonEscapeString v).length = v.length ↔ v.all isVerbatim = true := by
  induction v with
  | nil => simp [jsonEscapeString]
  | cons c v ih =>
      have hle := length_le_jsonEscapeString v
      have hcons : (jsonEscapeString (c :: v)).length =
          (escapeByte c).length + (jsonEscapeString v).length := by
        simp [jsonEscapeString]
      rw [List.all_cons, Bool.and_eq_true, ← ih, hcons, List.length_cons]
      by_cases hc : isVerbatim c = true
      · rw [escapeByte_of_verbatim hc, List.length_singleton]
        simp only [hc, true_and]
        omega
      · have htwo := length_escapeByte (Bool.not_eq_true _ ▸ hc)
        constructor
        · intro hlength
          omega
        · exact fun hall => absurd hall.1 hc

/-- **What is read between quotes is the text exactly when nothing in it is escaped.** -/
theorem unquoted_eq_iff (v : Bytes) : unquoted v = v ↔ v.all isVerbatim = true := by
  constructor
  · intro h
    -- Without a quote everything is read, and every escape makes the text longer.
    have hquote : quote ∉ v := h ▸ quote_not_mem_unquoted v
    have hescaped : quote ∉ jsonEscapeString v := by
      rw [jsonEscapeString, List.mem_flatMap]
      rintro ⟨c, hc, hmem⟩
      exact quote_not_mem_escapeByte (fun he => hquote (he ▸ hc)) hmem
    have hall : unquoted v = jsonEscapeString v := by
      rw [unquoted, List.takeWhile_eq_self_iff]
      exact fun c hc => decide_eq_true fun he => hescaped (he ▸ hc)
    rw [← jsonEscapeString_length_iff, ← hall, h]
  · intro h
    have hsame : jsonEscapeString v = v := by
      have hbytes : v.flatMap escapeByte = v.flatMap fun c => [c] :=
        List.flatMap_congr fun c hc => escapeByte_of_verbatim (List.all_eq_true.mp h c hc)
      rw [jsonEscapeString, hbytes, List.flatMap_singleton']
    rw [unquoted, hsame, List.takeWhile_eq_self_iff]
    intro c hc
    have hverbatim := List.all_eq_true.mp h c hc
    simp only [isVerbatim, Bool.and_eq_true] at hverbatim
    exact hverbatim.1.1

theorem readNode_eq_iff (h : Hit) : readNode h = h.toNode ↔ Verbatim h.toNode := by
  rw [Verbatim, ← unquoted_eq_iff, ← unquoted_eq_iff, ← unquoted_eq_iff]
  obtain ⟨⟨id, name, qualified, path⟩, score, plain⟩ := h
  simp [readNode]

/-! ## The three stages together -/

/-- **The first two stages are the front of their union.** -/
theorem indexedResults_eq (s : Stages) (limit : ℕ) :
    indexedResults s limit = union Node.id limit (s.codeFts ++ s.nameTrgm) := by
  rw [← union_two s.codeFts_ids s.nameTrgm_ids, indexedResults]
  by_cases hroom : (s.codeFts.take limit).length < limit
  · rw [if_pos hroom]
    by_cases hgate : 3 ≤ s.query.length ∧ s.trigramAvailable = true
    · rw [if_pos ⟨hroom, hgate⟩]
    · -- A stage that is skipped has nothing to say.
      have hnone : s.nameTrgm = [] := by
        apply s.no_trigram
        by_cases hshort : s.query.length < 3
        · exact Or.inl hshort
        · exact Or.inr (Bool.not_eq_true _ ▸ fun h => hgate ⟨by omega, h⟩)
      rw [if_neg (fun h => hgate h.2), hnone, List.take_nil, appendNew]
  · rw [if_neg hroom, if_neg (fun h => hroom h.1)]

theorem length_indexedResults (s : Stages) (limit : ℕ) :
    (indexedResults s limit).length = min limit (knownIds s).card := by
  rw [indexedResults_eq, length_union]
  rfl

/-- **What the loop over the semantic answer adds.** -/
theorem unifiedResults_eq {s : Stages} (hquery : s.query ≠ []) {limit : ℕ} (hlimit : limit ≤ 100) :
    unifiedResults s limit = indexedResults s limit ++
      ((s.semantic.take (room s limit)).filter fun h => h.id ∉ knownIds s).map readNode := by
  have hlength := length_indexedResults s limit
  rw [unifiedResults]
  by_cases hroom : (indexedResults s limit).length < limit
  · have hcard : (knownIds s).card < limit := by omega
    have hasked : searchLimit ((limit : ℤ) - (indexedResults s limit).length) = room s limit := by
      rw [searchLimit, room, if_neg (by omega)]
      omega
    have hnodup : (((s.semantic.take (room s limit)).map readNode).map Node.id).Nodup := by
      rw [List.map_map]
      exact s.semantic_ids.sublist ((List.take_sublist _ _).map _)
    have hshort : ((s.semantic.take (room s limit)).map readNode).length ≤
        limit - (knownIds s).card := by
      rw [List.length_map, List.length_take]
      exact Nat.min_le_left _ _
    have hturns := length_le_searchSemanticJson hquery s.semantic hasked
    have htext := searchSemanticJson_text hquery s.semantic hasked
    rw [if_pos hroom]
    show mergeSemantic limit _ _ _ = _
    rw [mergeSemantic_run limit _ hturns htext, indexedResults_eq,
      appendNew_union hnodup hshort hcard.le, List.filter_map]
    rfl
  · have hnone : room s limit = 0 := by
      rw [room]
      omega
    rw [if_neg hroom, hnone, List.take_zero, List.filter_nil, List.map_nil, List.append_nil]

theorem rankedUnion_eq (s : Stages) (limit : ℕ) : rankedUnion s limit = indexedResults s limit ++
    ((s.semantic.filter fun h => h.id ∉ knownIds s).take (room s limit)).map Hit.toNode := by
  have hnodup : ((s.semantic.map Hit.toNode).map Node.id).Nodup := by
    rw [List.map_map]
    exact s.semantic_ids
  rw [rankedUnion, union_last hnodup, ← indexedResults_eq, List.filter_map, ← List.map_take]
  rfl

theorem unifiedResults_iff {s : Stages} (hquery : s.query ≠ []) {limit : ℕ} (hlimit : limit ≤ 100) :
    unifiedResults s limit = rankedUnion s limit ↔ SemanticFits s limit := by
  rw [unifiedResults_eq hquery hlimit, rankedUnion_eq, List.append_cancel_left_eq, take_fresh_iff]
  simp only [not_not]
  constructor
  · rintro ⟨hnew, hread⟩
    exact ⟨hnew, fun h hh hid => (readNode_eq_iff h).mp (hread h hh hid)⟩
  · rintro ⟨hnew, hverbatim⟩
    exact ⟨hnew, fun h hh hid => (readNode_eq_iff h).mpr (hverbatim h hh hid)⟩

theorem searchUnifiedJson_eq {s : Stages} (hquery : s.query ≠ []) {limit : ℤ} (hlow : 1 ≤ limit)
    (hhigh : limit ≤ 100) :
    searchUnifiedJson s limit = render (unifiedDocument (unifiedResults s limit.toNat)) := by
  have hlimit : searchLimit limit = limit.toNat := by
    rw [searchLimit, if_neg (by omega)]
  rw [searchUnifiedJson, if_neg hquery, hlimit, render_unifiedDocument]

/-- **Unified search lists the ranked union** exactly when the semantic hits it asks for are new,
    unless nothing new follows them, and have no byte that JSON escapes. -/
theorem unified_search_iff (s : Stages) (limit : ℤ) (hlow : 1 ≤ limit) (hhigh : limit ≤ 100) :
    Lists (searchUnifiedJson s limit) (rankedUnion s limit.toNat) ↔
      SemanticFits s limit.toNat := by
  by_cases hquery : s.query = []
  · obtain ⟨hfts, htrigram, hsemantic⟩ := s.no_query hquery
    have htext : searchUnifiedJson s limit = render (unifiedDocument []) := by
      rw [searchUnifiedJson, if_pos hquery, render_unifiedDocument]
      decide
    have hnone : rankedUnion s limit.toNat = [] := by
      rw [rankedUnion, hfts, htrigram, hsemantic]
      exact List.take_nil
    rw [htext, hnone, lists_render_iff]
    refine ⟨fun _ => ⟨Or.inl ?_, ?_⟩, fun _ => rfl⟩
    · simp [hsemantic]
    · simp [hsemantic]
  · rw [searchUnifiedJson_eq hquery hlow hhigh, lists_render_iff]
    exact unifiedResults_iff hquery (by omega)

/-! ## A known name that costs room -/

/-- All stages find the class, and the semantic search finds its sibling as well. -/
def userSearch : Stages where
  query := lit "user_repository"
  trigramAvailable := true
  codeFts := [⟨1, lit "user_repository", lit "user_repository", lit "db.py"⟩]
  nameTrgm := [⟨1, lit "user_repository", lit "user_repository", lit "db.py"⟩]
  semantic := [
    ⟨⟨1, lit "user_repository", lit "user_repository", lit "db.py"⟩, lit "0.9", by decide⟩,
    ⟨⟨2, lit "user_dao", lit "user_dao", lit "db.py"⟩, lit "0.7", by decide⟩]
  codeFts_ids := by decide
  nameTrgm_ids := by decide
  semantic_ids := by decide
  no_query := by decide
  no_trigram := by decide

theorem unified_search_iff_userSearch :
    (1 : ℤ) ≤ 3 ∧ (3 : ℤ) ≤ 100 ∧
      (Lists (searchUnifiedJson userSearch 3) (rankedUnion userSearch 3) ↔
        SemanticFits userSearch 3) :=
  ⟨by decide, by decide, unified_search_iff userSearch 3 (by decide) (by decide)⟩

/-- With a limit of 2 the sibling is left out, although there is room for it. -/
theorem known_hit_costs_room : ¬ ∀ (s : Stages) (limit : ℤ), 1 ≤ limit → limit ≤ 100 →
    Lists (searchUnifiedJson s limit) (rankedUnion s limit.toNat) := by
  intro h
  have hlists := h userSearch 2 (by decide) (by decide)
  rw [searchUnifiedJson_eq (by decide) (by decide) (by decide), lists_render_iff] at hlists
  exact absurd hlists (by decide +kernel)

end CodeScope.Store
