import CodeScope.Knowledge.FactClassifiers
import CodeScope.Library.CNumbers
import CodeScope.Library.KeyScan

/-! # The details of a fact, byte by byte

`buildDetailJson` writes the line, the snippet and the related symbol of a fact as a JSON object
with the escaper that all answers share. `applyDetailJson` reads line and snippet with a scanner of
its own, which knows five escapes; any other escaped byte stands for itself. The file is what stands
between the last parentheses of the snippet. -/

namespace CodeScope.FactDetail

open JsonText Util

/-! ## Writing -/

def buildDetailJson (line : ℕ) (snippet relatedSymbol : Bytes) : Bytes :=
  lit "\x7b\"line\":" ++ integerText line ++ lit ",\"snippet\":\"" ++ jsonEscapeString snippet ++
    lit "\",\"related_symbol\":\"" ++ jsonEscapeString relatedSymbol ++ lit "\"\x7d"

/-! ## Reading -/

/-- What a byte behind a backslash stands for. -/
def unescaped (next : UInt8) : UInt8 :=
  if next = 0x6E then 0x0A else if next = 0x74 then 0x09 else if next = 0x72 then 0x0D else next

/-- A string literal up to its closing quote. -/
def readString : Bytes → Bytes
  | [] => []
  | [c] => if c = quote then [] else [c]
  | c :: next :: rest =>
      if c = quote then []
      else if c = backslash then unescaped next :: readString rest
      else c :: readString (next :: rest)

def detailJsonString (json key : Bytes) : Bytes :=
  match behind (keyText key ++ [quote]) json with
  | none => []
  | some text => readString text

/-- The digits at the front of a text as an `int`. -/
def readDigits (value : ℤ) : Bytes → ℤ
  | [] => value
  | c :: rest =>
      if isDigit c then readDigits (CNumbers.toInt32 (value * 10 + (c.toNat - 0x30 : ℕ))) rest
      else value

def detailJsonInt (json key : Bytes) : ℤ :=
  match behind (keyText key) json with
  | none => 0
  | some text =>
      match text.dropWhile fun c => c = 0x20 || c = 0x09 with
      | [] => 0
      | c :: rest => if c = minus then - readDigits 0 rest else readDigits 0 (c :: rest)

/-- `rfind` of one byte. -/
def rfind (c : UInt8) (s : Bytes) : Option ℕ :=
  if c ∈ s then some (s.length - 1 - s.reverse.idxOf c) else none

/-- The fields of an `EvidenceItem` that the details fill. -/
structure Located where
  line : ℤ
  snippet : Bytes
  file : Bytes
deriving DecidableEq

def openParen : UInt8 := 0x28
def closeParen : UInt8 := 0x29

def applyDetailJson (detail : Bytes) (item : Located) : Located :=
  if detail = [] then item
  else
    let snippet := detailJsonString detail (lit "snippet")
    { line := detailJsonInt detail (lit "line")
      snippet := snippet
      file :=
        match rfind openParen snippet, rfind closeParen snippet with
        | some opened, some closed =>
            if opened < closed then (snippet.drop (opened + 1)).take (closed - opened - 1)
            else item.file
        | _, _ => item.file }

/-! ## One byte -/

/-- A control byte that the scanner has no escape for. -/
def Garbled (c : UInt8) : Prop := c < 0x20 ∧ c ≠ 0x0A ∧ c ≠ 0x0D ∧ c ≠ 0x09

instance (c : UInt8) : Decidable (Garbled c) := inferInstanceAs (Decidable (_ ∧ _))

theorem clean_of_all {s : Bytes} (h : (s.all fun c => !decide (Garbled c)) = true) :
    ∀ c ∈ s, ¬ Garbled c := by
  intro c hc
  simpa using List.all_eq_true.mp h c hc

/-- What is read for a byte that has been escaped. -/
def reread (c : UInt8) : Bytes :=
  if Garbled c then
    [0x75, 0x30, 0x30, hexDigit (c.toNat / 16), hexDigit (c.toNat % 16)]
  else [c]

theorem readString_plain {c : UInt8} (hq : c ≠ quote) (hb : c ≠ backslash) (s : Bytes) :
    readString (c :: s) = c :: readString s := by
  cases s with
  | nil => simp [readString, hq]
  | cons d s => rw [readString, if_neg hq, if_neg hb]

theorem readString_escape (next : UInt8) (s : Bytes) :
    readString (backslash :: next :: s) = unescaped next :: readString s := by
  rw [readString, if_neg (by decide), if_pos rfl]

theorem readString_quote (s : Bytes) : readString (quote :: s) = [] := by
  cases s with
  | nil | cons d s => rw [readString, if_pos rfl]

theorem hexDigit_plain {d : ℕ} (hd : d < 16) : hexDigit d ≠ quote ∧ hexDigit d ≠ backslash := by
  interval_cases d <;> decide

/-- **An escaped byte is read as itself, unless it is garbled.** -/
theorem readString_escapeByte (c : UInt8) (s : Bytes) :
    readString (escapeByte c ++ s) = reread c ++ readString s := by
  unfold escapeByte
  split_ifs with hq hb hn hr ht hctl
  · subst hq
    exact readString_escape quote s
  · subst hb
    exact readString_escape backslash s
  · subst hn
    exact readString_escape 0x6E s
  · subst hr
    exact readString_escape 0x72 s
  · subst ht
    exact readString_escape 0x74 s
  · have hlt : c.toNat < 0x20 := hctl
    have hhigh := hexDigit_plain (d := c.toNat / 16) (by omega)
    have hlow := hexDigit_plain (d := c.toNat % 16) (by omega)
    rw [reread, if_pos ⟨hctl, hn, hr, ht⟩]
    simp only [List.cons_append, List.nil_append]
    rw [readString_escape, readString_plain (by decide) (by decide),
      readString_plain (by decide) (by decide), readString_plain hhigh.1 hhigh.2,
      readString_plain hlow.1 hlow.2]
    rfl
  · rw [reread, if_neg fun h => hctl h.1]
    exact readString_plain hq hb s

theorem readString_jsonEscapeString (s t : Bytes) :
    readString (jsonEscapeString s ++ quote :: t) = s.flatMap reread := by
  induction s with
  | nil => exact readString_quote t
  | cons c s ih =>
      have hcons : jsonEscapeString (c :: s) ++ quote :: t =
          escapeByte c ++ (jsonEscapeString s ++ quote :: t) := by
        simp [jsonEscapeString]
      rw [hcons, readString_escapeByte, ih, List.flatMap_cons]

theorem length_reread (c : UInt8) : 1 ≤ (reread c).length := by
  rw [reread]
  split_ifs <;> simp

/-- The text is read back exactly when no byte of it is garbled. -/
theorem flatMap_reread_iff (s : Bytes) : s.flatMap reread = s ↔ ∀ c ∈ s, ¬ Garbled c := by
  have hle : ∀ s : Bytes, s.length ≤ (s.flatMap reread).length := by
    intro s
    induction s with
    | nil => exact Nat.zero_le _
    | cons c s ih =>
        have hone := length_reread c
        rw [List.flatMap_cons, List.length_append, List.length_cons]
        omega
  induction s with
  | nil => simp
  | cons c s ih =>
      rw [List.flatMap_cons, List.forall_mem_cons]
      by_cases hc : Garbled c
      · refine iff_of_false (fun heq => ?_) fun h => h.1 hc
        have hlen := congrArg List.length heq
        have hrest := hle s
        rw [reread, if_pos hc, List.length_append, List.length_cons] at hlen
        simp only [List.length_cons, List.length_nil] at hlen
        omega
      · rw [reread, if_neg hc, List.singleton_append, List.cons.injEq]
        exact ⟨fun h => ⟨hc, ih.mp h.2⟩, fun h => ⟨rfl, ih.mpr h.2⟩⟩

/-! ## The fields -/

/-- Digits that stay within an `int` are read as the number. -/
theorem readDigits_eq {ds : Bytes} (hds : ∀ c ∈ ds, isDigit c = true) {r : Bytes}
    (hr : ∀ c ∈ r.head?, isDigit c = false) (n : ℕ)
    (hbound : ds.foldl (fun n d => 10 * n + (d.toNat - 0x30)) n < 2 ^ 31) :
    readDigits n (ds ++ r) = (ds.foldl (fun n d => 10 * n + (d.toNat - 0x30)) n : ℕ) := by
  induction ds generalizing n with
  | nil =>
      cases r with
      | nil => rfl
      | cons c r =>
          rw [List.nil_append, readDigits, hr c (by simp), if_neg (by decide)]
          rfl
  | cons c ds ih =>
      have hgrows : ∀ (l : Bytes) (m : ℕ),
          m ≤ l.foldl (fun n d => 10 * n + (d.toNat - 0x30)) m := by
        intro l
        induction l with
        | nil => exact fun m => le_rfl
        | cons d l ihl =>
            intro m
            exact le_trans (by omega) (ihl (10 * m + (d.toNat - 0x30)))
      rw [List.foldl_cons] at hbound ⊢
      have hstep := hgrows ds (10 * n + (c.toNat - 0x30))
      have hfits : CNumbers.toInt32 ((n : ℤ) * 10 + (c.toNat - 0x30 : ℕ)) =
          ((10 * n + (c.toNat - 0x30) : ℕ) : ℤ) := by
        rw [CNumbers.toInt32_eq_self (by omega) (by omega)]
        push_cast
        ring
      rw [List.cons_append, readDigits, hds c List.mem_cons_self, if_pos rfl, hfits]
      exact ih (fun d hd => hds d (List.mem_cons_of_mem c hd)) _ hbound

/-- **The line is read back.** -/
theorem detailJsonInt_line (line : ℕ) (hline : line < 2 ^ 31) (snippet relatedSymbol : Bytes) :
    detailJsonInt (buildDetailJson line snippet relatedSymbol) (lit "line") = line := by
  have hstart : buildDetailJson line snippet relatedSymbol =
      openBrace :: (keyText (lit "line") ++ (natText line ++ (lit ",\"snippet\":\"" ++
        jsonEscapeString snippet ++ lit "\",\"related_symbol\":\"" ++
          jsonEscapeString relatedSymbol ++ lit "\"\x7d"))) := by
    simp only [buildDetailJson, List.append_assoc]
    rfl
  obtain ⟨c, more, hcons⟩ := List.exists_cons_of_ne_nil (natText_ne_nil line)
  have hdigit : isDigit c = true := isDigit_of_mem_natText (by rw [hcons]; exact List.mem_cons_self)
  have hspace : (c = 0x20 || c = 0x09) = false := by
    by_contra h
    rw [Bool.not_eq_false, Bool.or_eq_true, decide_eq_true_eq, decide_eq_true_eq] at h
    rcases h with rfl | rfl <;> exact absurd hdigit (by decide)
  have hminus : c ≠ minus := by
    rintro rfl
    exact absurd hdigit (by decide)
  rw [detailJsonInt, hstart, behind_byte (by decide), behind_self (by decide)]
  simp only [hcons, List.cons_append]
  rw [List.dropWhile_cons_of_neg (by rw [hspace]; decide)]
  simp only [if_neg hminus]
  rw [← List.cons_append, ← hcons]
  have hvalue := natOf_natText line
  rw [natOf] at hvalue
  have hread := readDigits_eq (fun d hd => isDigit_of_mem_natText hd) (r := lit ",\"snippet\":\"" ++
    jsonEscapeString snippet ++ lit "\",\"related_symbol\":\"" ++ jsonEscapeString relatedSymbol ++
      lit "\"\x7d") (fun d hd => Option.some.inj hd ▸ rfl) 0 (by rw [hvalue]; exact hline)
  rw [hvalue] at hread
  exact hread

/-- The key and the opening quote of the snippet. -/
def snippetKey : Bytes := keyText (lit "snippet") ++ [quote]

/-- Nothing in front of the snippet is taken for its key. -/
theorem behind_snippetKey (line : ℕ) (t : Bytes) :
    behind snippetKey
      (lit "\x7b\"line\":" ++ (integerText line ++ (lit "," ++ (snippetKey ++ t)))) = some t := by
  have hquote : ∀ {c : UInt8} {u : Bytes}, c ≠ quote →
      behind snippetKey (c :: u) = behind snippetKey u := by
    intro c u hc
    refine behind_skip fun h => hc ?_
    rw [snippetKey, keyText, List.cons_append, List.cons_prefix_cons] at h
    exact h.1.symm
  have hopen : ∀ {c : UInt8} {u : Bytes}, c ≠ 0x73 →
      behind snippetKey (quote :: c :: u) = behind snippetKey (c :: u) := by
    intro c u hc
    refine behind_skip fun h => hc ?_
    exact (List.cons_prefix_cons.mp (List.cons_prefix_cons.mp h).2).1.symm
  have hstart : lit "\x7b\"line\":" ++ (integerText line ++ (lit "," ++ (snippetKey ++ t))) =
      openBrace :: quote :: 0x6C :: 0x69 :: 0x6E :: 0x65 :: quote :: colon ::
        (natText line ++ ([comma] ++ (snippetKey ++ t))) := rfl
  rw [hstart, hquote (by decide), hopen (by decide), hquote (by decide), hquote (by decide),
    hquote (by decide), hquote (by decide), hopen (by decide), hquote (by decide),
    behind_stretch ?_ (by decide), behind_stretch ?_ (by decide), behind_self (by decide)]
  · intro d hd h
    rw [List.mem_singleton.mp hd] at h
    exact absurd h (by decide)
  · intro d hd h
    obtain rfl : quote = d := Option.some.inj h
    exact absurd (isDigit_of_mem_natText hd) (by decide)

/-- **The snippet is read back but for its garbled bytes.** -/
theorem detailJsonString_snippet (line : ℕ) (snippet relatedSymbol : Bytes) :
    detailJsonString (buildDetailJson line snippet relatedSymbol) (lit "snippet") =
      snippet.flatMap reread := by
  have hstart : buildDetailJson line snippet relatedSymbol =
      lit "\x7b\"line\":" ++ (integerText line ++ (lit "," ++ (snippetKey ++
        (jsonEscapeString snippet ++ (quote :: (lit ",\"related_symbol\":\"" ++
          jsonEscapeString relatedSymbol ++ lit "\"\x7d")))))) := by
    simp only [buildDetailJson, List.append_assoc]
    rfl
  have hbehind := behind_snippetKey line (jsonEscapeString snippet ++
    (quote :: (lit ",\"related_symbol\":\"" ++ jsonEscapeString relatedSymbol ++ lit "\"\x7d")))
  rw [snippetKey] at hbehind
  rw [detailJsonString, hstart, snippetKey, hbehind]
  exact readString_jsonEscapeString snippet _

/-! ## The file -/

theorem rfind_append {c : UInt8} {b : Bytes} (hb : c ∉ b) (a : Bytes) :
    rfind c (a ++ c :: b) = some a.length := by
  have hmem : c ∈ a ++ c :: b := by simp
  have hback : (a ++ c :: b).reverse.idxOf c = b.length := by
    rw [List.reverse_append, List.reverse_cons, List.append_assoc,
      List.idxOf_append_of_notMem (by rwa [List.mem_reverse]), List.singleton_append,
      List.idxOf_cons_self, List.length_reverse, Nat.add_zero]
  rw [rfind, if_pos hmem, hback, List.length_append, List.length_cons]
  congr 1
  omega

theorem exists_split_last {c : UInt8} {s : Bytes} (h : c ∈ s) : ∃ a b, s = a ++ c :: b ∧ c ∉ b := by
  obtain ⟨b, a, hrev, hb⟩ := List.eq_append_cons_of_mem (List.mem_reverse.mpr h)
  refine ⟨a.reverse, b.reverse, ?_, fun hin => hb (List.mem_reverse.mp hin)⟩
  rw [← List.reverse_reverse s, hrev]
  simp

/-- `name + " (" + file + ")"` -/
def snippetOf (name file : Bytes) : Bytes := name ++ lit " (" ++ file ++ lit ")"

/-- The file of a snippet that has been read. -/
def fileOf (snippet file : Bytes) : Bytes :=
  match rfind openParen snippet, rfind closeParen snippet with
  | some opened, some closed =>
      if opened < closed then (snippet.drop (opened + 1)).take (closed - opened - 1) else file
  | _, _ => file

/-- Between the last parentheses stands what is behind the last opening one. -/
theorem fileOf_split {a b : Bytes} (hb : openParen ∉ b) (file : Bytes) :
    fileOf (a ++ openParen :: b ++ [closeParen]) file = b := by
  have hopen : rfind openParen (a ++ openParen :: b ++ [closeParen]) = some a.length := by
    rw [List.append_assoc, List.cons_append]
    refine rfind_append ?_ a
    rw [List.mem_append, not_or]
    exact ⟨hb, by decide⟩
  have hclose : rfind closeParen (a ++ openParen :: b ++ [closeParen]) =
      some (a ++ openParen :: b).length := rfind_append List.not_mem_nil _
  have hlen : (a ++ openParen :: b).length = a.length + 1 + b.length := by
    rw [List.length_append, List.length_cons]
    omega
  have hdrop : (a ++ openParen :: b ++ [closeParen]).drop (a.length + 1) = b ++ [closeParen] := by
    rw [List.append_assoc, ← List.drop_drop, List.drop_left]
    rfl
  rw [fileOf, hopen, hclose, hlen]
  dsimp only
  rw [if_pos (by omega), hdrop, show a.length + 1 + b.length - a.length - 1 = b.length by omega,
    List.take_left]

/-- **The file is found exactly when it has no opening parenthesis.** -/
theorem fileOf_iff (name file before : Bytes) :
    fileOf (snippetOf name file) before = file ↔ openParen ∉ file := by
  have hsnippet : snippetOf name file = (name ++ [0x20]) ++ openParen :: file ++ [closeParen] := by
    simp only [snippetOf, List.append_assoc, List.cons_append, List.nil_append]
    rfl
  constructor
  · intro h hmem
    obtain ⟨a, b, hsplit, hb⟩ := exists_split_last hmem
    have hinner : snippetOf name file =
        (name ++ 0x20 :: openParen :: a) ++ openParen :: b ++ [closeParen] := by
      rw [hsnippet, hsplit]
      simp
    rw [hinner, fileOf_split hb] at h
    have hlen := congrArg List.length (h.trans hsplit)
    rw [List.length_append, List.length_cons] at hlen
    omega
  · intro h
    rw [hsnippet, fileOf_split h]

/-! ## The round trip -/

/-- What has been stored is found again. -/
def Survives (line : ℕ) (name file relatedSymbol : Bytes) (item : Located) : Prop :=
  applyDetailJson (buildDetailJson line (snippetOf name file) relatedSymbol) item =
    { line := line, snippet := snippetOf name file, file := file }

/-- **The details survive storage exactly when name and file have no control byte but line feed,
    carriage return and tab, and the file has no opening parenthesis.** -/
theorem details_survive_iff (line : ℕ) (hline : line < 2 ^ 31) (name file relatedSymbol : Bytes)
    (item : Located) :
    Survives line name file relatedSymbol item ↔
      (∀ c ∈ name ++ file, ¬ Garbled c) ∧ openParen ∉ file := by
  have hread : applyDetailJson (buildDetailJson line (snippetOf name file) relatedSymbol) item =
      { line := line, snippet := (snippetOf name file).flatMap reread
        file := fileOf ((snippetOf name file).flatMap reread) item.file } := by
    rw [applyDetailJson, if_neg (by simp [buildDetailJson, lit, textBytes])]
    simp only [detailJsonString_snippet, detailJsonInt_line line hline]
    rfl
  have hgarbled : (∀ c ∈ snippetOf name file, ¬ Garbled c) ↔ ∀ c ∈ name ++ file, ¬ Garbled c := by
    have hopen := clean_of_all (s := lit " (") (by decide)
    have hclose := clean_of_all (s := lit ")") (by decide)
    simp only [snippetOf, List.forall_mem_append]
    exact ⟨fun h => ⟨h.1.1.1, h.1.2⟩, fun h => ⟨⟨⟨h.1, hopen⟩, h.2⟩, hclose⟩⟩
  rw [Survives, hread, Located.mk.injEq, ← hgarbled, ← flatMap_reread_iff]
  constructor
  · intro ⟨_, hsnippet, hfile⟩
    rw [hsnippet] at hfile
    exact ⟨hsnippet, (fileOf_iff name file item.file).mp hfile⟩
  · intro ⟨hsnippet, hfile⟩
    rw [hsnippet]
    exact ⟨rfl, rfl, (fileOf_iff name file item.file).mpr hfile⟩

theorem details_survive_main : Survives 41 (lit "main") (lit "src/main.go") (lit "os.Exit")
    ⟨0, [], []⟩ :=
  (details_survive_iff 41 (by decide) (lit "main") (lit "src/main.go") (lit "os.Exit")
    ⟨0, [], []⟩).mpr ⟨clean_of_all (by decide), by decide⟩

/-- A directory with parentheses: the page is looked for in `shop)/page.tsx`. -/
theorem route_group_lost :
    ¬ Survives 7 (lit "Page") (lit "app/(shop)/page.tsx") (lit "Page") ⟨0, [], []⟩ := by
  rw [Survives]
  decide +kernel

end CodeScope.FactDetail
