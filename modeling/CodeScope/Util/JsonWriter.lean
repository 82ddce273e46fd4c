import CodeScope.Library.JsonText

/-! # The JSON writer

`util/json_writer.cpp`: every tool answer of the engine is written through `JsonWriter`, which
inserts the separators and escapes every string. The writer keeps a stack of open containers; a call
that does not fit where the writer stands records an error, and from then on nothing is written.

Texts are lists of bytes. The value of a `double` is not modelled: it is either `null` or a
formatted floating-point number. -/

namespace CodeScope.Util

open JsonText

/-! ## Escaping -/

/-- The bytes of a text. -/
def textBytes (s : List Char) : Bytes := s.flatMap String.utf8EncodeChar

def lit (s : String) : Bytes := textBytes s.toList

/-- A digit of `%04x`. -/
def hexDigit (d : Nat) : UInt8 := if d < 10 then 0x30 + d.toUInt8 else 0x57 + d.toUInt8

/-- What one byte becomes inside a string. -/
def escapeByte (c : UInt8) : Bytes :=
  if c = quote then [backslash, quote]
  else if c = backslash then [backslash, backslash]
  else if c = 0x0A then [backslash, 0x6E]
  else if c = 0x0D then [backslash, 0x72]
  else if c = 0x09 then [backslash, 0x74]
  else if c < 0x20 then
    [backslash, 0x75, 0x30, 0x30, hexDigit (c.toNat / 16), hexDigit (c.toNat % 16)]
  else [c]

def jsonEscapeString (s : Bytes) : Bytes := s.flatMap escapeByte

/-- The contents of a string literal, unescaped; `none` when they are not the contents of one. -/
def jsonUnescapeString (s : Bytes) : Option Bytes :=
  match stringBody (s.length + 1) (s ++ [quote]) with
  | some (k, []) => some k
  | _ => none

theorem hexValue_hexDigit {d : Nat} (hd : d < 16) : hexValue (hexDigit d) = some d := by
  interval_cases d <;> rfl

theorem stringBody_backslash {n : Nat} {s u k t : Bytes} {c : UInt8}
    (hseq : escapeSequence u = some ([c], s)) (h : stringBody n s = some (k, t)) :
    stringBody (n + 1) (backslash :: u) = some (c :: k, t) := by
  have hne : backslash ≠ quote := by decide
  simp only [stringBody, if_neg hne, if_true, hseq, h]
  rfl

/-- A control byte is read from the four digits of its value. -/
theorem escapeSequence_control {c : UInt8} (hc : c < 0x20) (s : Bytes) :
    escapeSequence (0x75 :: 0x30 :: 0x30 :: hexDigit (c.toNat / 16) :: hexDigit (c.toNat % 16) ::
      s) = some ([c], s) := by
  have hlt : c.toNat < 0x20 := hc
  have hhigh : c.toNat / 16 < 16 := by omega
  have hlow : c.toNat % 16 < 16 := by omega
  have hzero : hexValue 0x30 = some 0 := rfl
  have hcode : codeUnit 0x30 0x30 (hexDigit (c.toNat / 16)) (hexDigit (c.toNat % 16)) =
      some c.toNat := by
    simp only [codeUnit, hzero, hexValue_hexDigit hhigh, hexValue_hexDigit hlow,
      Option.bind_some, Option.map_some]
    congr 1
    omega
  have hutf : utf8 c.toNat = [c] := by
    unfold utf8
    rw [if_pos (by omega)]
    simp
  have hnotLow : isLowSurrogate c.toNat = false := by
    simp [isLowSurrogate]
    omega
  have hnotHigh : isHighSurrogate c.toNat = false := by
    simp [isHighSurrogate]
    omega
  simp only [escapeSequence, if_true, hcode, hnotLow, hnotHigh, hutf]
  rfl

/-- **An escaped byte is read as the byte.** -/
theorem stringBody_escapeByte {n : Nat} {s k t : Bytes} (c : UInt8)
    (h : stringBody n s = some (k, t)) :
    stringBody (n + 1) (escapeByte c ++ s) = some (c :: k, t) := by
  unfold escapeByte
  split_ifs with hq hb hn hr ht hctl
  · subst hq
    exact stringBody_backslash rfl h
  · subst hb
    exact stringBody_backslash rfl h
  · subst hn
    exact stringBody_backslash rfl h
  · subst hr
    exact stringBody_backslash rfl h
  · subst ht
    exact stringBody_backslash rfl h
  · exact stringBody_backslash (escapeSequence_control hctl s) h
  · simp only [List.cons_append, List.nil_append, stringBody, if_neg hq, if_neg hb, if_neg hctl, h]
    rfl

/-- **An escaped string is read back**, byte for byte. -/
theorem stringBody_jsonEscapeString (s t : Bytes) :
    stringBody (s.length + 1) (jsonEscapeString s ++ quote :: t) = some (s, t) := by
  induction s with
  | nil => rfl
  | cons c rest ih =>
      have hcons : jsonEscapeString (c :: rest) ++ quote :: t =
          escapeByte c ++ (jsonEscapeString rest ++ quote :: t) := by
        simp [jsonEscapeString]
      rw [hcons, List.length_cons]
      exact stringBody_escapeByte c ih

theorem length_le_jsonEscapeString (s : Bytes) : s.length ≤ (jsonEscapeString s).length := by
  induction s with
  | nil => simp
  | cons c rest ih =>
      have hone : 1 ≤ (escapeByte c).length := by
        unfold escapeByte
        split_ifs <;> simp
      simp only [jsonEscapeString, List.flatMap_cons, List.length_append, List.length_cons] at ih ⊢
      omega

/-- **JSON unescaping undoes `jsonEscapeString`**. -/
theorem jsonUnescapeString_jsonEscapeString (s : Bytes) :
    jsonUnescapeString (jsonEscapeString s) = some s := by
  have hread := stringBody_append [] _ (Nat.succ_le_succ (length_le_jsonEscapeString s))
    (stringBody_jsonEscapeString s [])
  rw [List.append_nil, List.append_nil] at hread
  simp only [jsonUnescapeString]
  rw [hread]

theorem jsonEscapeString_injective : Function.Injective jsonEscapeString := by
  intro s t h
  have hs := jsonUnescapeString_jsonEscapeString s
  rw [h, jsonUnescapeString_jsonEscapeString t] at hs
  exact (Option.some.inj hs).symm

/-! ## The writer -/

structure Frame where
  isObject : Bool
  hasItems : Bool
deriving DecidableEq, Repr

/-- `JsonWriter`; the innermost frame of the stack comes first. -/
structure JsonWriter where
  out : Bytes := []
  error : String := ""
  stack : List Frame := []
  awaitingValue : Bool := false
  started : Bool := false
deriving DecidableEq, Repr

namespace JsonWriter

def reset (_ : JsonWriter) : JsonWriter := {}

def ok (w : JsonWriter) : Bool := w.error = ""

/-- `setError`: the first error is kept. -/
def setError (w : JsonWriter) (msg : String) : JsonWriter :=
  if w.error = "" then { w with error := msg } else w

def beforeValue (w : JsonWriter) : JsonWriter :=
  match w.stack with
  | [] => if w.started then w.setError "multiple top-level JSON values" else w
  | f :: _ =>
    if f.isObject then
      if w.awaitingValue then w else w.setError "object value without a key"
    else if f.hasItems then { w with out := w.out ++ [comma] }
    else w

def markValueDone (w : JsonWriter) : JsonWriter :=
  match w.stack with
  | [] => { w with started := true }
  | f :: rest =>
    { w with
      awaitingValue := if f.isObject then false else w.awaitingValue
      stack := { f with hasItems := true } :: rest }

def beginContainer (w : JsonWriter) (opening : UInt8) (isObject : Bool) : JsonWriter :=
  if ¬ w.ok then w
  else if ¬ w.beforeValue.ok then w.beforeValue
  else
    let parent := markValueDone { w.beforeValue with out := w.beforeValue.out ++ [opening] }
    { parent with stack := ⟨isObject, false⟩ :: parent.stack, awaitingValue := false }

def endContainer (w : JsonWriter) (closing : UInt8) (isObject : Bool) : JsonWriter :=
  if ¬ w.ok then w
  else
    match w.stack with
    | [] => w.setError (if isObject then "endObject without beginObject"
        else "endArray without beginArray")
    | f :: rest =>
      if f.isObject ≠ isObject then
        w.setError (if isObject then "endObject without beginObject"
          else "endArray without beginArray")
      else if isObject ∧ w.awaitingValue then w.setError "object key without a value"
      else { w with stack := rest, out := w.out ++ [closing], awaitingValue := false }

def beginObject (w : JsonWriter) : JsonWriter := w.beginContainer openBrace true

def endObject (w : JsonWriter) : JsonWriter := w.endContainer closeBrace true

def beginArray (w : JsonWriter) : JsonWriter := w.beginContainer openBracket false

def endArray (w : JsonWriter) : JsonWriter := w.endContainer closeBracket false

/-- `appendEscapedString`: what it appends. -/
def escapedString (v : Bytes) : Bytes := quote :: (jsonEscapeString v ++ [quote])

def key (w : JsonWriter) (k : Bytes) : JsonWriter :=
  if ¬ w.ok then w
  else
    match w.stack with
    | [] => w.setError "key outside an object"
    | f :: _ =>
      if ¬ f.isObject then w.setError "key outside an object"
      else if w.awaitingValue then
        w.setError "object key without a value for the previous key"
      else
        { w with
          out := w.out ++ (if f.hasItems then [comma] else []) ++ escapedString k ++ [colon]
          awaitingValue := true }

/-- The body the scalar values share: `text` is written as one value. -/
def scalar (w : JsonWriter) (text : Bytes) : JsonWriter :=
  if ¬ w.ok then w
  else if ¬ w.beforeValue.ok then w.beforeValue
  else markValueDone { w.beforeValue with out := w.beforeValue.out ++ text }

def stringValue (w : JsonWriter) (v : Bytes) : JsonWriter := w.scalar (escapedString v)

def boolValue (w : JsonWriter) (v : Bool) : JsonWriter :=
  w.scalar (if v then trueName else falseName)

/-- `value` of an integral type, by `std::to_string`. -/
def integerValue (w : JsonWriter) (v : Int) : JsonWriter := w.scalar (integerText v)

def nullValue (w : JsonWriter) : JsonWriter := w.scalar nullName

def raw (w : JsonWriter) (json : Bytes) : JsonWriter := w.scalar json

end JsonWriter

/-- A value that is no container: what the overloads of `value`, `nullValue` and `raw` take. -/
inductive Scalar where
  | string (v : Bytes)
  | bool (v : Bool)
  | integer (v : Int)
  | null
  | raw (json : Bytes)
deriving DecidableEq, Repr

/-- A call of the writer's interface. -/
inductive Call where
  | beginObject
  | endObject
  | beginArray
  | endArray
  | key (k : Bytes)
  | value (v : Scalar)
deriving DecidableEq, Repr

/-- The text a scalar is written as. -/
def Scalar.text : Scalar → Bytes
  | .string v => JsonWriter.escapedString v
  | .bool v => if v then trueName else falseName
  | .integer v => integerText v
  | .null => nullName
  | .raw json => json

def JsonWriter.value (w : JsonWriter) : Scalar → JsonWriter
  | .string v => w.stringValue v
  | .bool v => w.boolValue v
  | .integer v => w.integerValue v
  | .null => w.nullValue
  | .raw json => w.raw json

/-- One call. -/
def JsonWriter.call (w : JsonWriter) : Call → JsonWriter
  | .beginObject => w.beginObject
  | .endObject => w.endObject
  | .beginArray => w.beginArray
  | .endArray => w.endArray
  | .key k => w.key k
  | .value v => w.value v

/-- A sequence of calls. -/
def JsonWriter.calls (w : JsonWriter) (cs : List Call) : JsonWriter := cs.foldl JsonWriter.call w

/-! ## After the first error -/

namespace JsonWriter

variable {w : JsonWriter}

theorem beginContainer_of_not_ok (h : ¬ w.ok) (opening : UInt8) (b : Bool) :
    w.beginContainer opening b = w := if_pos h

theorem endContainer_of_not_ok (h : ¬ w.ok) (closing : UInt8) (b : Bool) :
    w.endContainer closing b = w := if_pos h

theorem key_of_not_ok (h : ¬ w.ok) (k : Bytes) : w.key k = w := if_pos h

theorem scalar_of_not_ok (h : ¬ w.ok) (text : Bytes) : w.scalar text = w :=
  if_pos h

theorem value_eq (w : JsonWriter) (v : Scalar) : w.value v = w.scalar v.text := by
  cases v <;> rfl

theorem call_of_not_ok (h : ¬ w.ok) (c : Call) : w.call c = w := by
  cases c with
  | beginObject => exact beginContainer_of_not_ok h openBrace true
  | endObject => exact endContainer_of_not_ok h closeBrace true
  | beginArray => exact beginContainer_of_not_ok h openBracket false
  | endArray => exact endContainer_of_not_ok h closeBracket false
  | key k => exact key_of_not_ok h k
  | value v =>
      rw [call, value_eq]
      exact scalar_of_not_ok h v.text

/-- **Nothing changes after an error.** -/
theorem calls_of_not_ok (h : ¬ w.ok) (cs : List Call) : w.calls cs = w := by
  induction cs with
  | nil => rfl
  | cons c rest ih =>
      have hstep : w.calls (c :: rest) = (w.call c).calls rest := rfl
      rw [hstep, call_of_not_ok h, ih]

theorem calls_append (w : JsonWriter) (cs cs' : List Call) :
    w.calls (cs ++ cs') = (w.calls cs).calls cs' := List.foldl_append

theorem calls_concat (w : JsonWriter) (cs : List Call) (c : Call) :
    w.calls (cs ++ [c]) = (w.calls cs).call c := calls_append w cs [c]

theorem setError_out (w : JsonWriter) (msg : String) : (w.setError msg).out = w.out := by
  unfold setError
  split_ifs <;> rfl

theorem beforeValue_out_of_not_ok (hok : w.ok) (h : ¬ w.beforeValue.ok) :
    w.beforeValue.out = w.out := by
  unfold beforeValue at h ⊢
  rcases hs : w.stack with - | ⟨f, rest⟩
  · simp only [hs] at h ⊢
    split_ifs at h ⊢
    · exact setError_out w _
    · rfl
  · simp only [hs] at h ⊢
    split_ifs at h ⊢
    · rfl
    · exact setError_out w _
    · exact absurd hok h
    · rfl

theorem beginContainer_out_of_not_ok (hok : w.ok) {opening : UInt8} {b : Bool}
    (h : ¬ (w.beginContainer opening b).ok) : (w.beginContainer opening b).out = w.out := by
  unfold beginContainer at h ⊢
  rw [if_neg (not_not_intro hok)] at h ⊢
  by_cases hbefore : w.beforeValue.ok
  · rw [if_neg (not_not_intro hbefore)] at h
    unfold markValueDone at h
    split at h <;> exact absurd hbefore h
  · rw [if_pos hbefore]
    exact beforeValue_out_of_not_ok hok hbefore

theorem endContainer_out_of_not_ok (hok : w.ok) {closing : UInt8} {b : Bool}
    (h : ¬ (w.endContainer closing b).ok) : (w.endContainer closing b).out = w.out := by
  unfold endContainer at h ⊢
  rw [if_neg (not_not_intro hok)] at h ⊢
  rcases hs : w.stack with - | ⟨f, rest⟩
  · exact setError_out w _
  · simp only [hs] at h ⊢
    split_ifs at h ⊢
    · exact setError_out w _
    · exact setError_out w _
    · exact setError_out w _
    · exact absurd hok h

theorem key_out_of_not_ok (hok : w.ok) {k : Bytes} (h : ¬ (w.key k).ok) :
    (w.key k).out = w.out := by
  unfold key at h ⊢
  rw [if_neg (not_not_intro hok)] at h ⊢
  rcases hs : w.stack with - | ⟨f, rest⟩
  · exact setError_out w _
  · simp only [hs] at h ⊢
    split_ifs at h ⊢
    · exact setError_out w _
    · exact absurd hok h
    · exact absurd hok h
    · exact setError_out w _

theorem scalar_out_of_not_ok (hok : w.ok) {text : Bytes} (h : ¬ (w.scalar text).ok) :
    (w.scalar text).out = w.out := by
  unfold scalar at h ⊢
  rw [if_neg (not_not_intro hok)] at h ⊢
  by_cases hbefore : w.beforeValue.ok
  · rw [if_neg (not_not_intro hbefore)] at h
    unfold markValueDone at h
    split at h <;> exact absurd hbefore h
  · rw [if_pos hbefore]
    exact beforeValue_out_of_not_ok hok hbefore

/-- **The call that records the error writes nothing.** -/
theorem call_out_of_not_ok (hok : w.ok) {c : Call} (h : ¬ (w.call c).ok) :
    (w.call c).out = w.out := by
  cases c with
  | beginObject | beginArray => exact beginContainer_out_of_not_ok hok h
  | endObject | endArray => exact endContainer_out_of_not_ok hok h
  | key k => exact key_out_of_not_ok hok h
  | value v =>
      rw [call, value_eq] at h ⊢
      exact scalar_out_of_not_ok hok h

end JsonWriter

end CodeScope.Util
