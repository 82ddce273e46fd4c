import CodeScope.Library.Text

/-! # The file list of an indexing call

The server hands the paths to the engine as a JSON array of strings; the engine looks for quotes and
takes what stands between two of them for a path. It undoes no escape, so a path that JSON must
escape is read as something else, and a quote in one shifts every path behind it. -/

namespace CodeScope.Index

open Text (Str str)

/-! ## The server's side -/

/-- The characters a JSON string cannot hold as themselves. -/
def MustEscape (c : Char) : Prop := c = '"' ∨ c = '\\' ∨ c.toNat < 0x20

instance (c : Char) : Decidable (MustEscape c) :=
  inferInstanceAs (Decidable (c = '"' ∨ c = '\\' ∨ c.toNat < 0x20))

/-- How a serializer writes the characters of a string. -/
structure JsonEscaping where
  escape : Char → Str
  plain : ∀ c, ¬ MustEscape c → escape c = [c]
  quote : escape '"' = ['\\', '"']
  /-- a backslash and more, none of it a quote -/
  escaped : ∀ c, MustEscape c → c ≠ '"' → ∃ e, e ≠ [] ∧ '"' ∉ e ∧ escape c = '\\' :: e

namespace JsonEscaping

variable (json : JsonEscaping)

def content (path : Str) : Str := path.flatMap json.escape

def jsonString (path : Str) : Str := '"' :: json.content path ++ ['"']

/-- `serde_json::Value::Array(…).to_string()` -/
def jsonList (paths : List Str) : Str :=
  '[' :: [','].intercalate (paths.map json.jsonString) ++ [']']

end JsonEscaping

/-- The escapes of `serde_json`: short ones where JSON has them, else `\u00` and two digits. -/
def serdeEscape (c : Char) : Str :=
  if c = '"' ∨ c = '\\' then ['\\', c]
  else if c.toNat = 0x08 then str "\\b"
  else if c.toNat = 0x09 then str "\\t"
  else if c.toNat = 0x0a then str "\\n"
  else if c.toNat = 0x0c then str "\\f"
  else if c.toNat = 0x0d then str "\\r"
  else if c.toNat < 0x20 then
    str "\\u00" ++ [Nat.digitChar (c.toNat / 16), Nat.digitChar (c.toNat % 16)]
  else [c]

theorem digitChar_ne_quote {n : ℕ} (h : n < 16) : Nat.digitChar n ≠ '"' := by
  revert n
  decide

def serdeJson : JsonEscaping where
  escape := serdeEscape
  plain := by
    intro c hc
    rw [MustEscape, not_or, not_or, Nat.not_lt] at hc
    obtain ⟨hquote, hslash, hlarge⟩ := hc
    unfold serdeEscape
    rw [if_neg (by simp [hquote, hslash])]
    iterate 6 rw [if_neg (by omega)]
  quote := by decide
  escaped := by
    intro c hmust hquote
    unfold serdeEscape
    split_ifs with hself hb ht hn hf hr hcontrol
    · exact ⟨[c], by simp, by simp [Ne.symm hquote], rfl⟩
    · exact ⟨['b'], by simp, by decide, rfl⟩
    · exact ⟨['t'], by simp, by decide, rfl⟩
    · exact ⟨['n'], by simp, by decide, rfl⟩
    · exact ⟨['f'], by simp, by decide, rfl⟩
    · exact ⟨['r'], by simp, by decide, rfl⟩
    · have hhigh := digitChar_ne_quote (n := c.toNat / 16) (by omega)
      have hlow := digitChar_ne_quote (n := c.toNat % 16) (by omega)
      exact ⟨['u', '0', '0', Nat.digitChar (c.toNat / 16), Nat.digitChar (c.toNat % 16)],
        by simp, by simp [Ne.symm hhigh, Ne.symm hlow], rfl⟩
    · rcases hmust with hc | hc | hc
      · exact absurd (Or.inl hc) hself
      · exact absurd (Or.inr hc) hself
      · exact absurd hc hcontrol

/-! ## The engine's side -/

mutual

/-- The loop of `indexFilesImpl`, looking for the quote in front of a path. -/
def scanPaths : Str → List Str
  | [] => []
  | c :: json => if c = '"' then scanPath [] json else scanPaths json

/-- Looking for the quote behind the path; without one the loop ends, an empty path is passed
    over. -/
def scanPath (path : Str) : Str → List Str
  | [] => []
  | c :: json =>
    if c = '"' then
      if path = [] then scanPaths json else path :: scanPaths json
    else scanPath (path ++ [c]) json

end

/-! ## What is read back -/

theorem scanPath_quote (path json : Str) :
    scanPath path ('"' :: json) = (if path = [] then [] else [path]) ++ scanPaths json := by
  rw [scanPath, if_pos rfl]
  split_ifs
  · rfl
  · rfl

theorem scanPath_append {s : Str} (hs : '"' ∉ s) (path json : Str) :
    scanPath path (s ++ json) = scanPath (path ++ s) json := by
  induction s generalizing path with
  | nil => rw [List.nil_append, List.append_nil]
  | cons c rest ih =>
      rw [List.mem_cons, not_or] at hs
      rw [List.cons_append, scanPath, if_neg (Ne.symm hs.1), ih hs.2, List.append_assoc,
        List.singleton_append]

/-- No path that is read has a quote in it. -/
theorem quote_not_mem_scan (json : Str) :
    (∀ p ∈ scanPaths json, '"' ∉ p) ∧
      ∀ path, '"' ∉ path → ∀ p ∈ scanPath path json, '"' ∉ p := by
  induction json with
  | nil => exact ⟨by simp [scanPaths], by simp [scanPath]⟩
  | cons c rest ih =>
      obtain ⟨houtside, hinside⟩ := ih
      refine ⟨?_, ?_⟩
      · rw [scanPaths]
        split_ifs with hc
        · exact hinside [] List.not_mem_nil
        · exact houtside
      · intro path hpath
        rw [scanPath]
        split_ifs with hc hempty
        · exact houtside
        · intro p hp
          rcases List.mem_cons.mp hp with rfl | hrest
          · exact hpath
          · exact houtside p hrest
        · refine hinside _ ?_
          simp [hpath, Ne.symm hc]

section Escaping

variable (json : JsonEscaping)

variable {path : Str}

theorem quote_not_mem_content (hpath : '"' ∉ path) : '"' ∉ json.content path := by
  intro hmem
  obtain ⟨c, hc, hquote⟩ := List.mem_flatMap.mp hmem
  have hne : c ≠ '"' := fun heq => hpath (heq ▸ hc)
  by_cases hmust : MustEscape c
  · obtain ⟨e, _, he, hescape⟩ := json.escaped c hmust hne
    rw [hescape, List.mem_cons] at hquote
    rcases hquote with hslash | hquote
    · exact absurd hslash (by decide)
    · exact he hquote
  · rw [json.plain c hmust, List.mem_singleton] at hquote
    exact hne hquote.symm

theorem content_of_plain (hplain : ∀ c ∈ path, ¬ MustEscape c) : json.content path = path := by
  induction path with
  | nil => rfl
  | cons c rest ih =>
      have hc := json.plain c (hplain c List.mem_cons_self)
      have hrest := ih fun d hd => hplain d (List.mem_cons_of_mem c hd)
      rw [JsonEscaping.content] at hrest ⊢
      rw [List.flatMap_cons, hc, hrest, List.singleton_append]

theorem two_le_length_escape {c : Char} (hc : MustEscape c) : 2 ≤ (json.escape c).length := by
  by_cases hquote : c = '"'
  · rw [hquote, json.quote]
    exact Nat.le_refl 2
  · obtain ⟨e, hne, _, hescape⟩ := json.escaped c hc hquote
    rw [hescape, List.length_cons]
    exact Nat.succ_le_succ (List.length_pos_iff.mpr hne)

theorem length_content (path : Str) :
    path.length + (path.filter fun c => MustEscape c).length ≤ (json.content path).length := by
  induction path with
  | nil => exact Nat.zero_le _
  | cons c rest ih =>
      have hcons : json.content (c :: rest) = json.escape c ++ json.content rest :=
        List.flatMap_cons
      rw [hcons, List.length_append]
      by_cases hc : MustEscape c
      · have hlong := two_le_length_escape json hc
        rw [List.filter_cons_of_pos (by simpa using hc), List.length_cons, List.length_cons]
        omega
      · rw [List.filter_cons_of_neg (by simpa using hc), json.plain c hc, List.length_cons]
        have hone : [c].length = 1 := rfl
        omega

theorem content_eq_iff (path : Str) :
    json.content path = path ↔ ∀ c ∈ path, ¬ MustEscape c := by
  constructor
  · intro heq c hc hmust
    have hlength := length_content json path
    have hmem : c ∈ path.filter fun c => MustEscape c :=
      List.mem_filter.mpr ⟨hc, by simpa using hmust⟩
    have hpos := List.length_pos_of_mem hmem
    rw [heq] at hlength
    omega
  · exact content_of_plain json

theorem content_ne_nil (hpath : path ≠ []) : json.content path ≠ [] := by
  intro hempty
  have hlength := length_content json path
  have hzero : path.length = 0 := by
    rw [hempty, List.length_nil] at hlength
    omega
  exact hpath (List.length_eq_zero_iff.mp hzero)

theorem scanPaths_jsonString (hne : path ≠ []) (hquote : '"' ∉ path) (rest : Str) :
    scanPaths (json.jsonString path ++ rest) = json.content path :: scanPaths rest := by
  have hcontent := quote_not_mem_content json hquote
  rw [JsonEscaping.jsonString, List.cons_append, List.cons_append, scanPaths, if_pos rfl,
    List.append_assoc, scanPath_append hcontent, List.nil_append, List.singleton_append,
    scanPath_quote, if_neg (content_ne_nil json hne), List.singleton_append]

/-- Without quotes in the paths, the contents of the strings are read. -/
theorem scanPaths_jsonList {paths : List Str} (hne : ∀ p ∈ paths, p ≠ [])
    (hquote : ∀ p ∈ paths, '"' ∉ p) :
    scanPaths (json.jsonList paths) = paths.map json.content := by
  have hitems : ∀ rest, scanPaths ([','].intercalate (paths.map json.jsonString) ++ rest) =
      paths.map json.content ++ scanPaths rest := by
    intro rest
    induction paths with
    | nil => rfl
    | cons p more ih =>
        have hp := scanPaths_jsonString json (hne p List.mem_cons_self)
          (hquote p List.mem_cons_self)
        have hmore := ih (fun q hq => hne q (List.mem_cons_of_mem p hq))
          (fun q hq => hquote q (List.mem_cons_of_mem p hq))
        by_cases hlast : more = []
        · subst hlast
          have hone : [','].intercalate ([p].map json.jsonString) = json.jsonString p := by simp
          rw [hone]
          exact hp rest
        · have hcons : [','].intercalate ((p :: more).map json.jsonString) =
              json.jsonString p ++ ',' :: [','].intercalate (more.map json.jsonString) := by
            cases more with
            | nil => exact absurd rfl hlast
            | cons q qs => rfl
          have hcomma : ∀ s, scanPaths (',' :: s) = scanPaths s := fun s => by
            rw [scanPaths, if_neg (by decide)]
          rw [hcons, List.append_assoc, hp, List.cons_append, hcomma, hmore, List.map_cons,
            List.cons_append]
  have hopen : ∀ s, scanPaths ('[' :: s) = scanPaths s := fun s => by
    rw [scanPaths, if_neg (by decide)]
  rw [JsonEscaping.jsonList, List.cons_append, hopen, hitems]
  have hclose : scanPaths [']'] = [] := by
    rw [scanPaths, if_neg (by decide), scanPaths]
  rw [hclose, List.append_nil]

end Escaping

/-- **The file list survives exactly when no path holds a quote, a backslash or a control
    character.** -/
theorem file_list_survives_iff (json : JsonEscaping) {paths : List Str}
    (hne : ∀ p ∈ paths, p ≠ []) :
    scanPaths (json.jsonList paths) = paths ↔ ∀ p ∈ paths, ∀ c ∈ p, ¬ MustEscape c := by
  have hcontents : paths.map json.content = paths ↔ ∀ p ∈ paths, ∀ c ∈ p, ¬ MustEscape c := by
    have hself := List.map_inj_left (l := paths) (f := json.content) (g := id)
    rw [List.map_id] at hself
    rw [hself]
    exact forall₂_congr fun p _ => content_eq_iff json p
  constructor
  · intro hscan
    have hquote : ∀ p ∈ paths, '"' ∉ p := by
      intro p hp
      rw [← hscan] at hp
      exact (quote_not_mem_scan _).1 p hp
    rwa [scanPaths_jsonList json hne hquote, hcontents] at hscan
  · intro hplain
    have hquote : ∀ p ∈ paths, '"' ∉ p := fun p hp hmem => hplain p hp '"' hmem (Or.inl rfl)
    rw [scanPaths_jsonList json hne hquote]
    exact hcontents.mpr hplain

/-- A path with a blank, a comma and a letter beyond ASCII comes back. -/
theorem file_list_survives_iff_plain :
    let paths := [str "a b,c.c", str "é.c"]
    scanPaths (serdeJson.jsonList paths) = paths ↔ ∀ p ∈ paths, ∀ c ∈ p, ¬ MustEscape c :=
  file_list_survives_iff serdeJson (by decide)

/-- The quote in `a"b.c` is escaped, but ends a path of the scanner: neither it nor `c.c` is
    read. -/
theorem file_list_loses_paths :
    let paths := [str "a\"b.c", str "c.c"]
    scanPaths (serdeJson.jsonList paths) ≠ paths := by
  decide

end CodeScope.Index
