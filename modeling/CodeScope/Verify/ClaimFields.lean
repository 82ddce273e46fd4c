import CodeScope.Index.FileList
import CodeScope.Verify.ClaimParser

/-! # A claim on its way to the engine

The server hands a claim over as the text of a JSON object, from which the engine takes each field
by looking for the quoted name of the field. A value can be that name too, or end with it behind a
quote; then what is read is the value of the next member. Of the escapes of JSON the engine undoes
those of a quote and a backslash and three more. -/

namespace CodeScope.Verify

open Text (Str str)
open Index (MustEscape serdeEscape serdeJson)

/-! ## The engine's side -/

/-- The text behind the first place where a needle stands. -/
def behind (needle : Str) : Str → Option Str
  | [] => none
  | c :: s =>
    if needle.isPrefixOf (c :: s) then some ((c :: s).drop needle.length) else behind needle s

/-- What is put down for the character behind a backslash. -/
def unescaped (c : Char) : Char :=
  if c = 'n' then '\n' else if c = 't' then '\t' else if c = 'r' then '\r' else c

/-- The loop of `jsonField`, behind the opening quote; the flag stands for a backslash that was just
    passed. -/
def fieldValue : Bool → Str → Str
  | false, [] => []
  | true, [] => ['\\']
  | true, c :: s => unescaped c :: fieldValue false s
  | false, c :: s =>
    if c = '"' then [] else if c = '\\' then fieldValue true s else c :: fieldValue false s

def quoted (key : Str) : Str := '"' :: (key ++ ['"'])

/-- The string behind the next colon; empty when something else stands there. -/
def stringBehind (rest : Str) : Str :=
  match (rest.dropWhile (· ≠ ':')).tail.dropWhile isGap with
  | [] => []
  | c :: value => if c = '"' then fieldValue false value else []

def jsonField (json key : Str) : Str :=
  match behind (quoted key) json with
  | none => []
  | some rest => stringBehind rest

def parseClaimType (s : Str) : Option ClaimType :=
  if s = str "capability_exists" then some .capabilityExists
  else if s = str "contract_holds" then some .contractHolds
  else if s = str "architecture_follows" then some .architectureFollows
  else if s = str "function_implements" then some .functionImplements
  else none

def orDefault (field default : Str) : Str := if field = [] then default else field

/-- The claim that `engine_verify_claim` reads; `none` for a type that it does not know. -/
def readClaim (input : Str) : Option ParsedClaim :=
  (parseClaimType (jsonField input (str "type"))).map fun type =>
    { type := type
      subject := jsonField input (str "subject")
      predicate := orDefault (jsonField input (str "predicate")) (str "implemented_by")
      object := jsonField input (str "object")
      scope := orDefault (jsonField input (str "scope")) (str "repository")
      sourceKind := orDefault (jsonField input (str "source_kind")) (str "manual")
      sourceRef := jsonField input (str "source_ref") }

def fieldNames : List Str :=
  [str "type", str "subject", str "predicate", str "object", str "scope", str "source_kind",
    str "source_ref"]

/-- The fields that are read: behind a type that is not known nothing more is. -/
def fieldsRead (input : Str) : List Str :=
  if (readClaim input).isSome then fieldNames else [str "type"]

/-! ## The server's side -/

/-- A claim as a JSON object. -/
structure ClaimObject where
  members : List (Str × Str)
  names : ∀ m ∈ members, m.1 ∈ fieldNames
  distinct : (members.map Prod.fst).Nodup

def memberText (m : Str × Str) : Str :=
  serdeJson.jsonString m.1 ++ ':' :: serdeJson.jsonString m.2

/-- `serde_json::Value::Object(…).to_string()` -/
def objectText (members : List (Str × Str)) : Str :=
  '{' :: ([','].intercalate (members.map memberText) ++ ['}'])

/-- The member of a name; empty when there is none. -/
def valueOf (members : List (Str × Str)) (key : Str) : Str := (members.lookup key).getD []

/-- Every field that is read is the member of that name. -/
def ArrivesAsSent (o : ClaimObject) : Prop :=
  ∀ key ∈ fieldsRead (objectText o.members),
    jsonField (objectText o.members) key = valueOf o.members key

/-! ## What is read -/

/-- A control character is read as the letters of its escape, three of them apart. -/
def readBack (c : Char) : Str :=
  if c ∈ ['\n', '\t', '\r'] then [c]
  else if c.toNat < 0x20 then (serdeEscape c).tail
  else [c]

/-- A value as it is read. -/
def asRead (v : Str) : Str := v.flatMap readBack

/-- The value has no control characters but line feeds, tabs and carriage returns. -/
def Legible (v : Str) : Prop := ∀ c ∈ v, 0x20 ≤ c.toNat ∨ c ∈ ['\n', '\t', '\r']

/-- The value is the name of the field, or ends with it behind a quote. -/
def Mentions (key v : Str) : Prop := Text.afterLast '"' v = key

instance (key v : Str) : Decidable (Mentions key v) := inferInstanceAs (Decidable (_ = _))

/-- The first member with such a value, in front of the field's own. -/
def decoy (members : List (Str × Str)) (key : Str) : Option ℕ :=
  (members.takeWhile fun m => m.1 ≠ key).findIdx? fun m => Mentions key m.2

/-- The field is read as it was sent: its value has no control characters that are lost and no value
    in front of it mentions it, or the value behind the first that does is the same. -/
def ReadsBack (members : List (Str × Str)) (key : Str) : Prop :=
  match decoy members key with
  | none => Legible (valueOf members key)
  | some i => ((members[i + 1]?).map fun m => asRead m.2).getD [] = valueOf members key

/-- A name without the characters that mark members and strings. -/
def PlainKey (key : Str) : Prop :=
  key ≠ [] ∧ ∀ c ∈ key, ¬ MustEscape c ∧ c ∉ [':', ',', '\x7d']

theorem plain_fieldNames : ∀ key ∈ fieldNames, PlainKey key := by
  have hall : fieldNames.all (fun key => key ≠ [] ∧
      key.all fun c => ¬ MustEscape c ∧ c ∉ [':', ',', '\x7d']) = true := by decide +kernel
  intro key hkey
  have h := of_decide_eq_true (List.all_eq_true.mp hall key hkey)
  exact ⟨h.1, fun c hc => of_decide_eq_true (List.all_eq_true.mp h.2 c hc)⟩

/-! ## Strings and what is read of them -/

theorem fieldValue_plain {w : Str} (hw : ∀ c ∈ w, c ≠ '"' ∧ c ≠ '\\') (s : Str) :
    fieldValue false (w ++ s) = w ++ fieldValue false s := by
  induction w with
  | nil => rfl
  | cons c w ih =>
      obtain ⟨hc, hrest⟩ := List.forall_mem_cons.mp hw
      rw [List.cons_append, fieldValue, if_neg hc.1, if_neg hc.2, ih hrest, List.cons_append]

theorem serdeEscape_control {n : ℕ} (hn : n < 0x20) : ∃ d more,
    serdeEscape (Char.ofNat n) = '\\' :: d :: more ∧
      (more.all fun c => c ≠ '"' ∧ c ≠ '\\') = true ∧
        readBack (Char.ofNat n) = unescaped d :: more := by
  interval_cases n <;> exact ⟨_, _, rfl, rfl, rfl⟩

theorem fieldValue_escape (c : Char) (s : Str) :
    fieldValue false (serdeEscape c ++ s) = readBack c ++ fieldValue false s := by
  by_cases hcontrol : c.toNat < 0x20
  · obtain ⟨d, more, hescape, hmore, hread⟩ := serdeEscape_control hcontrol
    rw [Char.ofNat_toNat] at hescape hread
    rw [hescape, hread, List.cons_append, List.cons_append, fieldValue, if_neg (by decide),
      if_pos rfl, fieldValue, List.cons_append]
    exact congrArg _ (fieldValue_plain
      (fun c hc => of_decide_eq_true (List.all_eq_true.mp hmore c hc)) s)
  have hread : readBack c = [c] := by
    unfold readBack
    split_ifs <;> rfl
  rw [hread]
  by_cases hself : c = '"' ∨ c = '\\'
  · rcases hself with rfl | rfl <;> rfl
  · rw [not_or] at hself
    have hplain : serdeEscape c = [c] := serdeJson.plain c (by
      rw [MustEscape]
      simp [hself, hcontrol])
    rw [hplain, List.singleton_append, List.singleton_append, fieldValue, if_neg hself.1,
      if_neg hself.2]

/-- **What is read of a string** ends at its closing quote. -/
theorem fieldValue_content (v t : Str) :
    fieldValue false (serdeJson.content v ++ '"' :: t) = asRead v := by
  induction v with
  | nil => rfl
  | cons c v ih =>
      show fieldValue false ((serdeEscape c ++ serdeJson.content v) ++ '"' :: t) =
        readBack c ++ asRead v
      rw [List.append_assoc, fieldValue_escape, ih]

theorem readBack_control : ∀ n < 0x20, Char.ofNat n ∉ ['\n', '\t', '\r'] →
    readBack (Char.ofNat n) ≠ [] ∧ (readBack (Char.ofNat n)).head? ≠ some (Char.ofNat n) := by
  decide

/-- A value is read as it is exactly when it has no other control characters. -/
theorem asRead_eq_self_iff (v : Str) : asRead v = v ↔ Legible v := by
  induction v with
  | nil => exact iff_of_true rfl fun c hc => absurd hc List.not_mem_nil
  | cons c v ih =>
      rw [Legible, List.forall_mem_cons, ← Legible, ← ih]
      show readBack c ++ asRead v = c :: v ↔ _
      by_cases hc : 0x20 ≤ c.toNat ∨ c ∈ ['\n', '\t', '\r']
      · have hread : readBack c = [c] := by
          unfold readBack
          split_ifs with hspace hcontrol
          · rfl
          · exact absurd hc (by simp only [not_or]; exact ⟨by omega, hspace⟩)
          · rfl
        rw [hread, List.singleton_append, List.cons_inj_right]
        exact ⟨fun h => ⟨hc, h⟩, fun h => h.2⟩
      · refine iff_of_false (fun h => ?_) fun h => hc h.1
        rw [not_or, Nat.not_le] at hc
        have hwrong := readBack_control c.toNat hc.1
        rw [Char.ofNat_toNat] at hwrong
        obtain ⟨hne, hhead⟩ := hwrong hc.2
        obtain ⟨d, more, hread⟩ := List.exists_cons_of_ne_nil hne
        rw [hread, List.cons_append] at h
        exact hhead (by rw [hread, (List.cons.inj h).1]; rfl)

/-! ## Where a name is found -/

section Behind

variable {key s t : Str}

theorem PlainKey.quote (h : PlainKey key) : '"' ∉ key := fun hmem => (h.2 _ hmem).1 (Or.inl rfl)

theorem PlainKey.backslash (h : PlainKey key) : '\\' ∉ key := fun hmem =>
  (h.2 _ hmem).1 (Or.inr (Or.inl rfl))

theorem behind_skip {needle : Str} {c : Char} (h : ¬ needle <+: c :: s) :
    behind needle (c :: s) = behind needle s := by
  rw [behind, if_neg (by rwa [List.isPrefixOf_iff_prefix])]

theorem behind_append (hs : '"' ∉ s) : behind (quoted key) (s ++ t) = behind (quoted key) t := by
  induction s with
  | nil => rfl
  | cons c s ih =>
      rw [List.mem_cons, not_or] at hs
      rw [List.cons_append, behind_skip, ih hs.2]
      rw [quoted, List.cons_prefix_cons]
      exact fun h => hs.1 h.1

/-- Between two quotes that have none between them stands the name or it does not. -/
theorem quoted_prefix_iff (hkey : '"' ∉ key) (hs : '"' ∉ s) :
    quoted key <+: '"' :: (s ++ '"' :: t) ↔ key = s := by
  have hfront : ∀ {w : Str} (u : Str), '"' ∉ w → (w ++ '"' :: u).takeWhile (· ≠ '"') = w := by
    intro w u hw
    have hall : ∀ c ∈ w, decide (c ≠ '"') = true :=
      fun c hc => decide_eq_true fun heq => hw (heq ▸ hc)
    rw [List.takeWhile_append_of_pos hall, List.takeWhile_cons_of_neg (by simp), List.append_nil]
  rw [quoted, List.cons_prefix_cons]
  constructor
  · intro h
    obtain ⟨-, u, hu⟩ := h
    rw [List.append_assoc, List.singleton_append] at hu
    rw [← hfront u hkey, hu, hfront t hs]
  · rintro rfl
    exact ⟨rfl, t, by rw [List.append_assoc, List.singleton_append]⟩

theorem mentions_append (a b : Str) : Mentions key (a ++ '"' :: b) ↔ Mentions key b := by
  unfold Mentions
  rw [Text.afterLast_append_sep]

theorem mentions_iff_of_not_mem {v : Str} (hv : '"' ∉ v) : Mentions key v ↔ v = key := by
  unfold Mentions
  rw [Text.afterLast, Text.splitLast_none.mpr hv]

/-- A plain name is written in one way only. -/
theorem content_eq_key_iff (hkey : PlainKey key) (v : Str) :
    key = serdeJson.content v ↔ key = v := by
  have hself : serdeJson.content key = key :=
    Index.content_of_plain serdeJson fun c hc => (hkey.2 c hc).1
  constructor
  · intro h
    have hplain : ∀ c ∈ v, ¬ MustEscape c := by
      intro c hc hmust
      refine hkey.backslash (h ▸ List.mem_flatMap.mpr ⟨c, hc, ?_⟩)
      by_cases hquote : c = '"'
      · rw [hquote, serdeJson.quote]
        exact List.mem_cons_self
      · obtain ⟨e, -, -, hescape⟩ := serdeJson.escaped c hmust hquote
        rw [hescape]
        exact List.mem_cons_self
    rw [h, Index.content_of_plain serdeJson hplain]
  · rintro rfl
    exact hself.symm

/-- **In a string a name is found** when the string mentions it, and then the text behind the string
    is looked at. -/
theorem behind_string (hkey : PlainKey key) (ht : ∀ c ∈ t.head?, c ∉ key) (v : Str) :
    behind (quoted key) ('"' :: (serdeJson.content v ++ '"' :: t)) =
      if Mentions key v then some t else behind (quoted key) t := by
  -- on the length: behind an escaped quote the rest of the value is looked at in the same way
  induction hlen : v.length using Nat.strong_induction_on generalizing v with
  | _ n ih =>
      subst hlen
      by_cases hquote : '"' ∈ v
      · obtain ⟨a, b, rfl, ha⟩ := List.eq_append_cons_of_mem hquote
        have hcontent : serdeJson.content (a ++ '"' :: b) =
            (serdeJson.content a ++ ['\\']) ++ '"' :: serdeJson.content b := by
          simp [Index.JsonEscaping.content, serdeJson.quote]
        have hfree : '"' ∉ serdeJson.content a ++ ['\\'] := by
          simp [Index.quote_not_mem_content serdeJson ha]
        have hmiss : ¬ quoted key <+: '"' :: ((serdeJson.content a ++ ['\\']) ++
            '"' :: (serdeJson.content b ++ '"' :: t)) := by
          rw [quoted_prefix_iff hkey.quote hfree]
          intro h
          exact hkey.backslash (by rw [h]; simp)
        rw [hcontent, List.append_assoc, List.cons_append, behind_skip hmiss, behind_append hfree,
          ih b.length (by simp; omega) b rfl]
        simp only [mentions_append]
      · have hfree := Index.quote_not_mem_content serdeJson hquote
        simp only [mentions_iff_of_not_mem hquote]
        by_cases hv : v = key
        · have hself := (content_eq_key_iff hkey v).mpr hv.symm
          have htext : '"' :: (serdeJson.content v ++ '"' :: t) = quoted key ++ t := by
            rw [← hself, quoted, List.cons_append, List.append_assoc, List.singleton_append]
          rw [if_pos hv, htext]
          show behind (quoted key) ('"' :: (key ++ ['"'] ++ t)) = some t
          rw [behind, if_pos (by
            rw [List.isPrefixOf_iff_prefix]
            exact List.prefix_append (quoted key) t)]
          exact congrArg some (@List.drop_left _ (quoted key) _)
        · have hmiss : ¬ quoted key <+: '"' :: (serdeJson.content v ++ '"' :: t) := by
            rw [quoted_prefix_iff hkey.quote hfree, content_eq_key_iff hkey]
            exact Ne.symm hv
          have hend : ¬ quoted key <+: '"' :: t := by
            rw [quoted, List.cons_prefix_cons]
            intro h
            obtain ⟨-, u, hu⟩ := h
            obtain ⟨c, more, hcons⟩ := List.exists_cons_of_ne_nil hkey.1
            rw [hcons] at hu
            exact ht c (by rw [← hu]; rfl) (by rw [hcons]; exact List.mem_cons_self)
          rw [if_neg hv, behind_skip hmiss, behind_append hfree, behind_skip hend]

/-- **The name in one member.** -/
theorem behind_member (hkey : PlainKey key) (ht : ∀ c ∈ t.head?, c ∉ key) {m : Str × Str}
    (hname : PlainKey m.1) :
    behind (quoted key) (memberText m ++ t) =
      if m.1 = key then some (':' :: (serdeJson.jsonString m.2 ++ t))
      else if Mentions key m.2 then some t else behind (quoted key) t := by
  have htext : memberText m ++ t =
      '"' :: (serdeJson.content m.1 ++ '"' :: ':' :: (serdeJson.jsonString m.2 ++ t)) := by
    simp [memberText, Index.JsonEscaping.jsonString]
  have hcolon : ':' ∉ key := fun hmem => (hkey.2 _ hmem).2 (by simp)
  rw [htext, behind_string hkey (by simpa using hcolon)]
  simp only [mentions_iff_of_not_mem hname.quote]
  by_cases hm : m.1 = key
  · rw [if_pos hm, if_pos hm]
  · have hvalue : serdeJson.jsonString m.2 ++ t = '"' :: (serdeJson.content m.2 ++ '"' :: t) := by
      simp [Index.JsonEscaping.jsonString]
    have hmiss : ¬ quoted key <+: ':' :: '"' :: (serdeJson.content m.2 ++ '"' :: t) := by
      rw [quoted, List.cons_prefix_cons]
      exact fun h => absurd h.1 (by decide)
    rw [if_neg hm, if_neg hm, hvalue, behind_skip hmiss, behind_string hkey ht]

end Behind

/-! ## A field of an object -/

/-- The text behind a member. -/
def followText : List (Str × Str) → Str
  | [] => ['\x7d']
  | m :: rest => ',' :: (memberText m ++ followText rest)

theorem objectText_cons (m : Str × Str) (rest : List (Str × Str)) :
    objectText (m :: rest) = '{' :: (memberText m ++ followText rest) := by
  rw [objectText]
  congr 1
  induction rest generalizing m with
  | nil => rw [List.map_singleton, List.intercalate_singleton, followText]
  | cons n rest ih =>
      rw [List.map_cons, List.map_cons, List.intercalate_cons_cons, ← List.map_cons,
        List.append_assoc, List.append_assoc, ih, followText, List.singleton_append]

theorem followText_head {key : Str} (hkey : PlainKey key) (rest : List (Str × Str)) :
    ∀ c ∈ (followText rest).head?, c ∉ key := by
  intro c hc hmem
  cases rest with
  | nil | cons m rest =>
      cases hc
      exact (hkey.2 _ hmem).2 (by simp)

/-- The value of the first member, as it is read. -/
def firstRead (members : List (Str × Str)) : Str :=
  (members.head?.map fun m => asRead m.2).getD []

theorem stringBehind_colon (v t : Str) :
    stringBehind (':' :: (serdeJson.jsonString v ++ t)) = asRead v := by
  rw [← fieldValue_content v t]
  simp [stringBehind, Index.JsonEscaping.jsonString, isGap]

/-- **Behind a mention** stands the value of the next member. -/
theorem stringBehind_follow {rest : List (Str × Str)} (hnames : ∀ m ∈ rest, PlainKey m.1) :
    stringBehind (followText rest) = firstRead rest := by
  cases rest with
  | nil => rfl
  | cons m rest =>
      have hplain := (hnames m List.mem_cons_self).2
      have hself : serdeJson.content m.1 = m.1 :=
        Index.content_of_plain serdeJson fun c hc => (hplain c hc).1
      have hskip : (followText (m :: rest)).dropWhile (· ≠ ':') =
          ':' :: (serdeJson.jsonString m.2 ++ followText rest) := by
        have htext : followText (m :: rest) = (',' :: '"' :: (m.1 ++ ['"'])) ++
            ':' :: (serdeJson.jsonString m.2 ++ followText rest) := by
          simp [followText, memberText, Index.JsonEscaping.jsonString, hself]
        rw [htext, List.dropWhile_append_of_pos, List.dropWhile_cons_of_neg (by simp)]
        intro c hc
        simp only [List.mem_cons, List.mem_append, List.not_mem_nil, or_false] at hc
        rcases hc with rfl | rfl | hc | rfl
        · decide
        · decide
        · exact decide_eq_true fun heq => (hplain c hc).2 (by simp [heq])
        · decide
      have hcolon := stringBehind_colon m.2 (followText rest)
      rw [stringBehind, List.dropWhile_cons_of_neg (by simp)] at hcolon
      rw [stringBehind, hskip]
      exact hcolon

/-- The field as it is read from an object. -/
def readsAs (key : Str) : List (Str × Str) → Str
  | [] => []
  | m :: rest =>
    if m.1 = key then asRead m.2
    else if Mentions key m.2 then firstRead rest else readsAs key rest

/-- Reading goes on behind a member as it does in front of it. -/
theorem jsonField_members {key : Str} (hkey : PlainKey key) {m : Str × Str}
    {rest : List (Str × Str)} (hnames : ∀ n ∈ m :: rest, PlainKey n.1) :
    jsonField (memberText m ++ followText rest) key = readsAs key (m :: rest) := by
  induction rest generalizing m with
  | nil =>
      rw [jsonField, behind_member hkey (followText_head hkey []) (hnames m List.mem_cons_self),
        readsAs]
      split_ifs with hm hmention
      · exact stringBehind_colon m.2 _
      · rfl
      · have hmiss : ¬ quoted key <+: ['\x7d'] := by
          rw [quoted, List.cons_prefix_cons]
          exact fun h => absurd h.1 (by decide)
        rw [followText, behind_skip hmiss]
        rfl
  | cons n rest ih =>
      have hrest : ∀ k ∈ n :: rest, PlainKey k.1 :=
        fun k hk => hnames k (List.mem_cons_of_mem m hk)
      rw [jsonField, behind_member hkey (followText_head hkey (n :: rest))
        (hnames m List.mem_cons_self), readsAs]
      split_ifs with hm hmention
      · exact stringBehind_colon m.2 _
      · exact stringBehind_follow hrest
      · have hmiss : ¬ quoted key <+: ',' :: (memberText n ++ followText rest) := by
          rw [quoted, List.cons_prefix_cons]
          exact fun h => absurd h.1 (by decide)
        rw [followText, behind_skip hmiss, ← ih hrest, jsonField]

/-- **What is read for a field.** -/
theorem jsonField_objectText {key : Str} (hkey : PlainKey key) {members : List (Str × Str)}
    (hnames : ∀ m ∈ members, PlainKey m.1) :
    jsonField (objectText members) key = readsAs key members := by
  have hmiss : ∀ t : Str, ¬ quoted key <+: '{' :: t := by
    intro t h
    rw [quoted, List.cons_prefix_cons] at h
    exact absurd h.1 (by decide)
  cases members with
  | nil =>
      have hend : ¬ quoted key <+: ['\x7d'] := by
        rw [quoted, List.cons_prefix_cons]
        exact fun h => absurd h.1 (by decide)
      have htext : objectText [] = ['{', '\x7d'] := rfl
      rw [htext, jsonField, behind_skip (hmiss _), behind_skip hend]
      rfl
  | cons m rest =>
      rw [objectText_cons, jsonField, behind_skip (hmiss _), ← jsonField_members hkey hnames,
        jsonField]

/-! ## When it is what was sent -/

section Decoy

variable (m : Str × Str) (rest : List (Str × Str)) (key : Str)

theorem valueOf_cons : valueOf (m :: rest) key = if m.1 = key then m.2 else valueOf rest key := by
  unfold valueOf
  by_cases hm : m.1 = key
  · rw [if_pos hm, List.lookup_cons, hm, beq_self_eq_true]
    rfl
  · rw [if_neg hm, List.lookup_cons, beq_false_of_ne (Ne.symm hm)]

theorem decoy_cons : decoy (m :: rest) key =
    if m.1 = key then none
    else if Mentions key m.2 then some 0 else (decoy rest key).map (· + 1) := by
  unfold decoy
  by_cases hm : m.1 = key
  · rw [if_pos hm, List.takeWhile_cons_of_neg (by simpa using hm)]
    rfl
  · rw [if_neg hm, List.takeWhile_cons_of_pos (by simpa using hm), List.findIdx?_cons]
    by_cases hmention : Mentions key m.2
    · rw [if_pos hmention, decide_eq_true hmention, if_pos rfl]
    · rw [if_neg hmention, decide_eq_false hmention]
      rfl

end Decoy

/-- **A field is read as it was sent** exactly when nothing gets in its way. -/
theorem readsAs_eq_iff (key : Str) (members : List (Str × Str)) :
    readsAs key members = valueOf members key ↔ ReadsBack members key := by
  induction members with
  | nil => exact iff_of_true rfl fun c hc => absurd hc List.not_mem_nil
  | cons m rest ih =>
      rw [readsAs, ReadsBack, decoy_cons, valueOf_cons]
      split_ifs with hm hmention
      · exact asRead_eq_self_iff m.2
      · show _ ↔ (((m :: rest)[0 + 1]?).map fun n => asRead n.2).getD [] = valueOf rest key
        rw [List.getElem?_cons_succ, ← List.head?_eq_getElem?, firstRead]
      · rw [ih, ReadsBack]
        cases decoy rest key with
        | none => rfl
        | some i => rfl

/-- **A claim arrives as it was sent** exactly when its type reads back and, where that is a type
    the engine knows, every field does. -/
theorem claim_arrives_iff (o : ClaimObject) :
    ArrivesAsSent o ↔ ReadsBack o.members (str "type") ∧
      ((parseClaimType (valueOf o.members (str "type"))).isSome →
        ∀ key ∈ fieldNames, ReadsBack o.members key) := by
  have hfield : ∀ key ∈ fieldNames,
      (jsonField (objectText o.members) key = valueOf o.members key ↔ ReadsBack o.members key) := by
    intro key hkey
    rw [jsonField_objectText (plain_fieldNames key hkey)
      fun m hm => plain_fieldNames m.1 (o.names m hm), readsAs_eq_iff]
  have htype : str "type" ∈ fieldNames := List.mem_cons_self
  have hknown : (readClaim (objectText o.members)).isSome =
      (parseClaimType (jsonField (objectText o.members) (str "type"))).isSome := by
    rw [readClaim, Option.isSome_map]
  have hread : str "type" ∈ fieldsRead (objectText o.members) := by
    unfold fieldsRead
    split_ifs
    · exact htype
    · exact List.mem_singleton_self _
  constructor
  · intro h
    have hself := h _ hread
    refine ⟨(hfield _ htype).mp hself, fun hsome key hkey => (hfield key hkey).mp (h key ?_)⟩
    rwa [fieldsRead, hknown, hself, if_pos hsome]
  · intro h key hkey
    obtain ⟨hself, hall⟩ := h
    rw [fieldsRead, hknown, (hfield _ htype).mpr hself] at hkey
    split_ifs at hkey with hsome
    · exact (hfield key hkey).mpr (hall hsome key hkey)
    · rw [List.mem_singleton.mp hkey]
      exact (hfield _ htype).mpr hself

/-- The object is the word `type`, so the subject is read for the type. -/
def aboutTypes : ClaimObject where
  members := [(str "object", str "type"), (str "subject", str "Indexing"),
    (str "type", str "capability_exists")]
  names := by decide +kernel
  distinct := by decide +kernel

theorem claim_read_with_another_type : ¬ ∀ o, ArrivesAsSent o := by
  intro h
  have hread : str "type" ∈ fieldsRead (objectText aboutTypes.members) := by
    unfold fieldsRead
    split_ifs
    · exact List.mem_cons_self
    · exact List.mem_singleton_self _
  exact absurd (h aboutTypes (str "type") hread) (by decide +kernel)

end CodeScope.Verify
