import CodeScope.Util.JsonWriter

/-! # What a sequence of writer calls describes

A well-formed sequence of calls spells out a tree. `Position` says how far into a tree a sequence
has come; it is a push-down automaton whose language are the prefixes of the well-formed sequences
(`accepts_iff`). The writer's flags and stack are a function of the position (`stateOf`), so the
writer records an error exactly where the automaton is stuck. -/

namespace CodeScope.Util

open JsonText

/-- The tree a well-formed sequence of calls describes. -/
inductive CallTree where
  | scalar (v : Scalar)
  | array (items : List CallTree)
  | object (members : List (Bytes × CallTree))

namespace CallTree

mutual

/-- The calls that describe a tree. -/
def callsOf : CallTree → List Call
  | .scalar v => [.value v]
  | .array items => .beginArray :: (callsOfItems items ++ [.endArray])
  | .object members => .beginObject :: (callsOfMembers members ++ [.endObject])

def callsOfItems : List CallTree → List Call
  | [] => []
  | t :: rest => callsOf t ++ callsOfItems rest

def callsOfMembers : List (Bytes × CallTree) → List Call
  | [] => []
  | (k, t) :: rest => .key k :: (callsOf t ++ callsOfMembers rest)

end

mutual

/-- The text of a tree. -/
def render : CallTree → Bytes
  | .scalar v => v.text
  | .array items => openBracket :: (renderItems items ++ [closeBracket])
  | .object members => openBrace :: (renderMembers members ++ [closeBrace])

def renderItems : List CallTree → Bytes
  | [] => []
  | t :: rest => render t ++ (if rest.isEmpty then [] else comma :: renderItems rest)

def renderMembers : List (Bytes × CallTree) → Bytes
  | [] => []
  | (k, t) :: rest =>
    JsonWriter.escapedString k ++
      colon :: (render t ++ (if rest.isEmpty then [] else comma :: renderMembers rest))

end

end CallTree

/-- The JSON value of a scalar; a raw text stands for the value it denotes. -/
def Scalar.toValue : Scalar → Value
  | .string v => .string v
  | .bool v => .bool v
  | .integer v => .integer v
  | .null => .null
  | .raw json => (parse json).getD .null

namespace CallTree

mutual

/-- The JSON value of a tree. -/
def toValue : CallTree → Value
  | .scalar v => v.toValue
  | .array items => .array (toValues items)
  | .object members => .object (toMembers members)

def toValues : List CallTree → List Value
  | [] => []
  | t :: rest => toValue t :: toValues rest

def toMembers : List (Bytes × CallTree) → List (Bytes × Value)
  | [] => []
  | (k, t) :: rest => (k, toValue t) :: toMembers rest

end

theorem callsOfItems_append (items : List CallTree) (t : CallTree) :
    callsOfItems (items ++ [t]) = callsOfItems items ++ callsOf t := by
  induction items with
  | nil => simp [callsOfItems]
  | cons first rest ih => simp [callsOfItems, ih]

theorem callsOfMembers_append (members : List (Bytes × CallTree)) (k : Bytes) (t : CallTree) :
    callsOfMembers (members ++ [(k, t)]) = callsOfMembers members ++ .key k :: callsOf t := by
  induction members with
  | nil => simp [callsOfMembers]
  | cons first rest ih =>
      obtain ⟨k', t'⟩ := first
      simp [callsOfMembers, ih]

/-- The separator before the next element of a container with these elements. -/
def separator {α : Type} (elements : List α) : Bytes := if elements.isEmpty then [] else [comma]

theorem renderItems_append (items : List CallTree) (t : CallTree) :
    renderItems (items ++ [t]) = renderItems items ++ separator items ++ render t := by
  induction items with
  | nil => simp [renderItems, separator]
  | cons first rest ih =>
      rw [List.cons_append, renderItems, renderItems, ih]
      cases rest <;> simp [separator, renderItems]

theorem renderMembers_append (members : List (Bytes × CallTree)) (k : Bytes) (t : CallTree) :
    renderMembers (members ++ [(k, t)]) =
      renderMembers members ++ separator members ++ JsonWriter.escapedString k ++
        colon :: render t := by
  induction members with
  | nil => simp [renderMembers, separator]
  | cons first rest ih =>
      obtain ⟨k', t'⟩ := first
      rw [List.cons_append, renderMembers, renderMembers, ih]
      cases rest <;> simp [separator, renderMembers]

end CallTree

open CallTree

/-! ## Positions -/

/-- A container with a place for the next value. -/
inductive Parent where
  | array (items : List CallTree)
  | object (members : List (Bytes × CallTree)) (key : Bytes)

def Parent.isObject : Parent → Bool
  | .array _ => false
  | .object _ _ => true

/-- Where a sequence of calls stands: where a value may come, inside an object between two members,
    or after the top-level value. The containers around it are listed innermost first. -/
inductive Position where
  | slot (path : List Parent)
  | members (ms : List (Bytes × CallTree)) (path : List Parent)
  | finished (t : CallTree)

namespace Position

/-- Put a finished value where one is expected. -/
def fill : List Parent → CallTree → Position
  | [], t => .finished t
  | .array items :: path, t => .slot (.array (items ++ [t]) :: path)
  | .object ms k :: path, t => .members (ms ++ [(k, t)]) path

/-- The position after a call, when the call fits. -/
def call : Position → Call → Option Position
  | .slot path, .value v => some (fill path (.scalar v))
  | .slot path, .beginArray => some (.slot (.array [] :: path))
  | .slot path, .beginObject => some (.members [] path)
  | .slot (.array items :: path), .endArray => some (fill path (.array items))
  | .members ms path, .key k => some (.slot (.object ms k :: path))
  | .members ms path, .endObject => some (fill path (.object ms))
  | _, _ => none

/-- The position after a sequence of calls. -/
def calls (p : Position) : List Call → Option Position
  | [] => some p
  | c :: rest => (p.call c).bind fun p' => calls p' rest

theorem calls_append (p : Position) (cs cs' : List Call) :
    p.calls (cs ++ cs') = (p.calls cs).bind fun p' => p'.calls cs' := by
  induction cs generalizing p with
  | nil => rfl
  | cons c rest ih =>
      rw [List.cons_append, calls, calls]
      cases p.call c with
      | none => rfl
      | some p' => exact ih p'

/-- The calls made on the way to a place for a value. -/
def callsOfPath : List Parent → List Call
  | [] => []
  | .array items :: path => callsOfPath path ++ .beginArray :: callsOfItems items
  | .object ms k :: path => callsOfPath path ++ .beginObject :: (callsOfMembers ms ++ [.key k])

/-- The calls made so far. -/
def callsSoFar : Position → List Call
  | .slot path => callsOfPath path
  | .members ms path => callsOfPath path ++ .beginObject :: callsOfMembers ms
  | .finished t => callsOf t

theorem callsSoFar_fill (path : List Parent) (t : CallTree) :
    (fill path t).callsSoFar = callsOfPath path ++ callsOf t := by
  match path with
  | [] => rfl
  | .array items :: path => simp [fill, callsSoFar, callsOfPath, callsOfItems_append]
  | .object ms k :: path => simp [fill, callsSoFar, callsOfPath, callsOfMembers_append]

theorem callsSoFar_call {p p' : Position} {c : Call} (h : p.call c = some p') :
    p'.callsSoFar = p.callsSoFar ++ [c] := by
  unfold call at h
  split at h
  · obtain rfl := Option.some.inj h
    rw [callsSoFar_fill]
    rfl
  · obtain rfl := Option.some.inj h
    rfl
  · obtain rfl := Option.some.inj h
    rfl
  · obtain rfl := Option.some.inj h
    rw [callsSoFar_fill]
    simp [callsSoFar, callsOfPath, callsOf]
  · obtain rfl := Option.some.inj h
    simp [callsSoFar, callsOfPath]
  · obtain rfl := Option.some.inj h
    rw [callsSoFar_fill]
    simp [callsSoFar, callsOf]
  · exact absurd h (by simp)

theorem callsSoFar_calls {p p' : Position} {cs : List Call} (h : p.calls cs = some p') :
    p'.callsSoFar = p.callsSoFar ++ cs := by
  induction cs generalizing p with
  | nil =>
      obtain rfl := Option.some.inj h
      simp
  | cons c rest ih =>
      obtain ⟨q, hq, hrest⟩ := Option.bind_eq_some_iff.mp h
      rw [ih hrest, callsSoFar_call hq, List.append_assoc, List.singleton_append]

mutual

/-- **The calls of a tree fill the place it is written to.** -/
theorem calls_callsOf (t : CallTree) (path : List Parent) :
    (slot path).calls (callsOf t) = some (fill path t) := by
  match t with
  | .scalar v => simp [callsOf, calls, call]
  | .array items =>
      have hitems := calls_callsOfItems items [] path
      rw [List.nil_append] at hitems
      simp [callsOf, calls, call, calls_append, hitems]
  | .object ms =>
      have hmembers := calls_callsOfMembers ms [] path
      rw [List.nil_append] at hmembers
      simp [callsOf, calls, call, calls_append, hmembers]

theorem calls_callsOfItems (items before : List CallTree) (path : List Parent) :
    (slot (.array before :: path)).calls (callsOfItems items) =
      some (.slot (.array (before ++ items) :: path)) := by
  match items with
  | [] => simp [callsOfItems, calls]
  | t :: rest =>
      rw [callsOfItems, calls_append, calls_callsOf t]
      simp [fill, calls_callsOfItems rest (before ++ [t]) path]

theorem calls_callsOfMembers (ms before : List (Bytes × CallTree)) (path : List Parent) :
    (members before path).calls (callsOfMembers ms) = some (.members (before ++ ms) path) := by
  match ms with
  | [] => simp [callsOfMembers, calls]
  | (k, t) :: rest =>
      rw [callsOfMembers, calls]
      simp only [call, Option.bind_some]
      rw [calls_append, calls_callsOf t]
      simp [fill, calls_callsOfMembers rest (before ++ [(k, t)]) path]

end

/-- Close all containers around a value. -/
def close : List Parent → CallTree → CallTree
  | [], t => t
  | .array items :: path, t => close path (.array (items ++ [t]))
  | .object ms k :: path, t => close path (.object (ms ++ [(k, t)]))

/-- A whole tree that a sequence of calls can still become. -/
def completion : Position → CallTree
  | .slot path => close path (.scalar .null)
  | .members ms path => close path (.object ms)
  | .finished t => t

theorem callsOf_close (path : List Parent) (t : CallTree) :
    callsOfPath path ++ callsOf t <+: callsOf (close path t) := by
  induction path generalizing t with
  | nil => exact List.prefix_rfl
  | cons p path ih =>
      cases p with
      | array items =>
          refine List.IsPrefix.trans ⟨[.endArray], ?_⟩ (ih (.array (items ++ [t])))
          simp [callsOfPath, callsOf, callsOfItems_append]
      | object ms k =>
          refine List.IsPrefix.trans ⟨[.endObject], ?_⟩ (ih (.object (ms ++ [(k, t)])))
          simp [callsOfPath, callsOf, callsOfMembers_append]

theorem callsSoFar_completion (p : Position) : p.callsSoFar <+: callsOf p.completion := by
  cases p with
  | slot path =>
      exact List.IsPrefix.trans (List.prefix_append _ _) (callsOf_close path (.scalar .null))
  | members ms path =>
      refine List.IsPrefix.trans ⟨[.endObject], ?_⟩ (callsOf_close path (.object ms))
      simp [callsSoFar, callsOf]
  | finished t => exact List.prefix_rfl

/-- **The automaton accepts the prefixes of the well-formed sequences.** -/
theorem accepts_iff (cs : List Call) :
    ((slot []).calls cs).isSome ↔ ∃ t, cs <+: callsOf t := by
  constructor
  · intro h
    obtain ⟨p, hp⟩ := Option.isSome_iff_exists.mp h
    have hcalls : p.callsSoFar = cs := by simpa [callsSoFar, callsOfPath] using callsSoFar_calls hp
    exact ⟨p.completion, hcalls ▸ callsSoFar_completion p⟩
  · rintro ⟨t, rest, ht⟩
    have hall := calls_callsOf t []
    rw [← ht, calls_append] at hall
    obtain ⟨p, hp, -⟩ := Option.bind_eq_some_iff.mp hall
    rw [hp]
    rfl

/-! ## The writer at a position -/

/-- The separator the writer puts before a value; before a key it has put one already. -/
def separatorOfPath : List Parent → Bytes
  | .array items :: _ => separator items
  | _ => []

/-- What is written when a value may come. -/
def textOfPath : List Parent → Bytes
  | [] => []
  | .array items :: path =>
    textOfPath path ++ separatorOfPath path ++ openBracket :: renderItems items
  | .object ms k :: path =>
    textOfPath path ++ separatorOfPath path ++
      openBrace :: (renderMembers ms ++ separator ms ++ JsonWriter.escapedString k ++ [colon])

/-- What is written so far. -/
def text : Position → Bytes
  | .slot path => textOfPath path
  | .members ms path => textOfPath path ++ separatorOfPath path ++ openBrace :: renderMembers ms
  | .finished t => render t

/-- The frames of containers whose last element is still open. -/
def framesOfPath (path : List Parent) : List Frame := path.map fun p => ⟨p.isObject, true⟩

/-- The frames at a place for a value. -/
def slotFrames : List Parent → List Frame
  | [] => []
  | .array items :: path => ⟨false, !items.isEmpty⟩ :: framesOfPath path
  | .object ms _ :: path => ⟨true, !ms.isEmpty⟩ :: framesOfPath path

/-- **The state of the writer at a position.** -/
def stateOf (p : Position) : JsonWriter where
  out := p.text
  error := ""
  stack :=
    match p with
    | .slot path => slotFrames path
    | .members ms path => ⟨true, !ms.isEmpty⟩ :: framesOfPath path
    | .finished _ => []
  awaitingValue :=
    match p with
    | .slot (.object _ _ :: _) => true
    | _ => false
  started :=
    match p with
    | .slot [] => false
    | _ => true

theorem stateOf_ok (p : Position) : (stateOf p).ok = true := rfl

theorem beforeValue_slot (path : List Parent) :
    (stateOf (.slot path)).beforeValue =
      { stateOf (.slot path) with out := textOfPath path ++ separatorOfPath path } := by
  match path with
  | [] => rfl
  | .array [] :: path => simp [JsonWriter.beforeValue, stateOf, slotFrames, text, separatorOfPath,
      separator]
  | .array (t :: rest) :: path => simp [JsonWriter.beforeValue, stateOf, slotFrames, text,
      separatorOfPath, separator]
  | .object ms k :: path => simp [JsonWriter.beforeValue, stateOf, slotFrames, text,
      separatorOfPath]

theorem markValueDone_slot (path : List Parent) (s : Bytes) :
    JsonWriter.markValueDone { stateOf (.slot path) with out := s } =
      { out := s, error := "", stack := framesOfPath path, awaitingValue := false
        started := true } := by
  match path with
  | [] => rfl
  | .array items :: path => rfl
  | .object ms k :: path => rfl

theorem stateOf_fill (path : List Parent) (t : CallTree) :
    stateOf (fill path t) =
      { out := textOfPath path ++ separatorOfPath path ++ render t, error := ""
        stack := framesOfPath path, awaitingValue := false, started := true } := by
  match path with
  | [] => simp [fill, stateOf, text, textOfPath, separatorOfPath, framesOfPath]
  | .array items :: path =>
      simp [fill, stateOf, text, textOfPath, separatorOfPath, slotFrames, framesOfPath,
        renderItems_append, Parent.isObject]
  | .object ms k :: path =>
      simp [fill, stateOf, text, textOfPath, separatorOfPath, framesOfPath,
        renderMembers_append, Parent.isObject]

theorem scalar_slot (path : List Parent) (v : Scalar) :
    (stateOf (.slot path)).scalar v.text = stateOf (fill path (.scalar v)) := by
  have hbefore := beforeValue_slot path
  have hok : (stateOf (.slot path)).beforeValue.ok = true := by
    rw [hbefore]
    rfl
  rw [JsonWriter.scalar, if_neg (not_not_intro (stateOf_ok _)), if_neg (not_not_intro hok),
    hbefore, markValueDone_slot, stateOf_fill, render]

theorem beginContainer_slot (path : List Parent) (opening : UInt8) (b : Bool) :
    (stateOf (.slot path)).beginContainer opening b =
      { out := textOfPath path ++ separatorOfPath path ++ [opening], error := ""
        stack := ⟨b, false⟩ :: framesOfPath path, awaitingValue := false, started := true } := by
  have hbefore := beforeValue_slot path
  have hok : (stateOf (.slot path)).beforeValue.ok = true := by
    rw [hbefore]
    rfl
  rw [JsonWriter.beginContainer, if_neg (not_not_intro (stateOf_ok _)),
    if_neg (not_not_intro hok), hbefore]
  simp only [markValueDone_slot]

theorem beginArray_slot (path : List Parent) :
    (stateOf (.slot path)).beginArray = stateOf (.slot (.array [] :: path)) := by
  rw [JsonWriter.beginArray, beginContainer_slot]
  simp [stateOf, text, textOfPath, slotFrames, renderItems]

theorem beginObject_slot (path : List Parent) :
    (stateOf (.slot path)).beginObject = stateOf (.members [] path) := by
  rw [JsonWriter.beginObject, beginContainer_slot]
  simp [stateOf, text, renderMembers]

theorem endArray_slot (items : List CallTree) (path : List Parent) :
    (stateOf (.slot (.array items :: path))).endArray = stateOf (fill path (.array items)) := by
  rw [stateOf_fill]
  simp [JsonWriter.endArray, JsonWriter.endContainer, stateOf, JsonWriter.ok, slotFrames, text,
    textOfPath, render]

theorem endObject_members (ms : List (Bytes × CallTree)) (path : List Parent) :
    (stateOf (.members ms path)).endObject = stateOf (fill path (.object ms)) := by
  rw [stateOf_fill]
  simp [JsonWriter.endObject, JsonWriter.endContainer, stateOf, JsonWriter.ok, text, render]

theorem key_members (ms : List (Bytes × CallTree)) (path : List Parent) (k : Bytes) :
    (stateOf (.members ms path)).key k = stateOf (.slot (.object ms k :: path)) := by
  cases ms <;>
    simp [JsonWriter.key, stateOf, JsonWriter.ok, text, textOfPath, slotFrames, separator]

/-- **The writer follows the automaton.** -/
theorem call_stateOf {p p' : Position} {c : Call} (h : p.call c = some p') :
    (stateOf p).call c = stateOf p' := by
  unfold call at h
  split at h
  · rename_i path v
    obtain rfl := Option.some.inj h
    rw [JsonWriter.call, JsonWriter.value_eq, scalar_slot]
  · obtain rfl := Option.some.inj h
    exact beginArray_slot _
  · obtain rfl := Option.some.inj h
    exact beginObject_slot _
  · obtain rfl := Option.some.inj h
    exact endArray_slot _ _
  · obtain rfl := Option.some.inj h
    exact key_members _ _ _
  · obtain rfl := Option.some.inj h
    exact endObject_members _ _
  · exact absurd h (by simp)

/-- **Where the automaton is stuck the writer records an error.** -/
theorem call_stateOf_of_none {p : Position} {c : Call} (h : p.call c = none) :
    ((stateOf p).call c).ok = false := by
  cases p with
  | slot path =>
      rcases path with - | ⟨items | ⟨ms, k⟩, path⟩
      · cases c <;> first | rfl | simp [call] at h
      · cases c <;> first | rfl | simp [call] at h
      · cases c <;> first | rfl | simp [call] at h
  | members ms path =>
      cases c with
      | value v =>
          rw [JsonWriter.call, JsonWriter.value_eq]
          rfl
      | beginObject => rfl
      | endObject | key k => exact absurd h (by simp [call])
      | beginArray => rfl
      | endArray => rfl
  | finished t =>
      cases c with
      | value v =>
          rw [JsonWriter.call, JsonWriter.value_eq]
          rfl
      | beginObject => rfl
      | endObject => rfl
      | beginArray => rfl
      | endArray => rfl
      | key k => rfl

theorem calls_stateOf (p : Position) (cs : List Call) :
    match p.calls cs with
    | some p' => (stateOf p).calls cs = stateOf p'
    | none => ((stateOf p).calls cs).ok = false := by
  induction cs generalizing p with
  | nil => rfl
  | cons c rest ih =>
      have hstep : (stateOf p).calls (c :: rest) = ((stateOf p).call c).calls rest := rfl
      rw [hstep, calls]
      cases hc : p.call c with
      | none =>
          have hstuck := call_stateOf_of_none hc
          simp only [Option.bind_none]
          rw [JsonWriter.calls_of_not_ok (by simp [hstuck]), hstuck]
      | some q =>
          simp only [Option.bind_some]
          rw [call_stateOf hc]
          exact ih q

theorem text_close (path : List Parent) (t : CallTree) :
    textOfPath path ++ separatorOfPath path ++ render t <+: render (close path t) := by
  induction path generalizing t with
  | nil => simp [textOfPath, separatorOfPath, close]
  | cons p path ih =>
      cases p with
      | array items =>
          refine List.IsPrefix.trans ⟨[closeBracket], ?_⟩ (ih (.array (items ++ [t])))
          simp [textOfPath, separatorOfPath, render, renderItems_append]
      | object ms k =>
          refine List.IsPrefix.trans ⟨[closeBrace], ?_⟩ (ih (.object (ms ++ [(k, t)])))
          simp [textOfPath, separatorOfPath, render, renderMembers_append]

theorem text_completion (p : Position) : p.text <+: render p.completion := by
  cases p with
  | slot path =>
      refine List.IsPrefix.trans ⟨separatorOfPath path ++ render (.scalar .null), ?_⟩
        (text_close path (.scalar .null))
      simp [text]
  | members ms path =>
      refine List.IsPrefix.trans ⟨[closeBrace], ?_⟩ (text_close path (.object ms))
      simp [text, render]
  | finished t => exact List.prefix_rfl

end Position

/-! ## Reading the output -/

/-- A raw text must be one JSON text. -/
def Call.WellFormed : Call → Prop
  | .value (.raw json) => (parse json).isSome
  | _ => True

/-- All raw texts of a sequence are JSON texts. -/
def WellFormedCalls (cs : List Call) : Prop := ∀ c ∈ cs, c.WellFormed

variable {cs : List Call} {w : JsonWriter}

theorem wellFormedCalls_append {cs' : List Call} :
    WellFormedCalls (cs ++ cs') ↔ WellFormedCalls cs ∧ WellFormedCalls cs' :=
  List.forall_mem_append

theorem wellFormedCalls_cons {c : Call} :
    WellFormedCalls (c :: cs) ↔ c.WellFormed ∧ WellFormedCalls cs :=
  List.forall_mem_cons

theorem value_escapedString {n : Nat} {s r : Bytes}
    (hn : (JsonWriter.escapedString s).length ≤ n + 1) :
    stringBody n (jsonEscapeString s ++ quote :: r) = some (s, r) := by
  have hlen := length_le_jsonEscapeString s
  simp only [JsonWriter.escapedString, List.length_cons, List.length_append, List.length_nil] at hn
  have hle : s.length + 1 ≤ n := by omega
  have hread := stringBody_append [] _ hle (stringBody_jsonEscapeString s r)
  simpa using hread

/-- A scalar is read back. -/
theorem value_scalar {v : Scalar} (hv : (Call.value v).WellFormed) {n : Nat} {r : Bytes}
    (hr : Boundary r) (hn : v.text.length + 1 ≤ n) :
    ∃ u, value n (v.text ++ r) = some (v.toValue, u) ∧ skipSpace u = skipSpace r := by
  obtain ⟨n, rfl⟩ : ∃ m, n = m + 1 := ⟨n - 1, by omega⟩
  cases v with
  | string s =>
      refine ⟨r, ?_, rfl⟩
      have hlen : (JsonWriter.escapedString s).length ≤ n + 1 := by
        simp only [Scalar.text] at hn
        omega
      have hbody := value_escapedString (r := r) hlen
      have htext : Scalar.text (.string s) ++ r = quote :: (jsonEscapeString s ++ quote :: r) := by
        simp [Scalar.text, JsonWriter.escapedString]
      rw [htext]
      exact value_string hbody
  | bool b =>
      refine ⟨r, ?_, rfl⟩
      cases b with
      | false => exact value_false n r
      | true => exact value_true n r
  | integer i => exact ⟨r, value_integer i hr, rfl⟩
  | null => exact ⟨r, value_null n r, rfl⟩
  | raw json =>
      obtain ⟨w, hw⟩ := Option.isSome_iff_exists.mp hv
      have hvalue : Scalar.toValue (.raw json) = w := by simp [Scalar.toValue, hw]
      rw [hvalue]
      exact value_of_parse hw hr hn

namespace CallTree

mutual

/-- **The text of a tree is read back as its value.** -/
theorem value_render (t : CallTree) (ht : WellFormedCalls (callsOf t)) {n : Nat} {r : Bytes}
    (hr : Boundary r) (hn : (render t).length + 1 ≤ n) :
    ∃ u, value n (render t ++ r) = some (toValue t, u) ∧ skipSpace u = skipSpace r := by
  match t with
  | .scalar v =>
      rw [callsOf] at ht
      rw [render] at hn ⊢
      rw [toValue]
      exact value_scalar (ht _ (List.mem_singleton.mpr rfl)) hr hn
  | .array ts =>
      obtain ⟨n, rfl⟩ : ∃ m, n = m + 1 := ⟨n - 1, by omega⟩
      rw [callsOf, wellFormedCalls_cons, wellFormedCalls_append] at ht
      rw [render] at hn ⊢
      rw [toValue, List.cons_append, List.append_assoc]
      simp only [List.length_cons, List.length_append, List.length_nil] at hn
      refine ⟨r, ?_, rfl⟩
      by_cases hne : ts = []
      · rw [hne]
        exact value_emptyArray n r
      · exact value_array (items_render ts hne ht.2.1 (by omega))
  | .object ms =>
      obtain ⟨n, rfl⟩ : ∃ m, n = m + 1 := ⟨n - 1, by omega⟩
      rw [callsOf, wellFormedCalls_cons, wellFormedCalls_append] at ht
      rw [render] at hn ⊢
      rw [toValue, List.cons_append, List.append_assoc]
      simp only [List.length_cons, List.length_append, List.length_nil] at hn
      refine ⟨r, ?_, rfl⟩
      by_cases hne : ms = []
      · rw [hne]
        exact value_emptyObject n r
      · exact value_object (members_render ms hne ht.2.1 (by omega))

theorem items_render (ts : List CallTree) (hne : ts ≠ [])
    (ht : WellFormedCalls (callsOfItems ts)) {n : Nat} {r : Bytes}
    (hn : (renderItems ts).length + 2 ≤ n) :
    items n (renderItems ts ++ ([closeBracket] ++ r)) = some (toValues ts, r) := by
  obtain ⟨n, rfl⟩ : ∃ m, n = m + 1 := ⟨n - 1, by omega⟩
  match ts with
  | [] => exact absurd rfl hne
  | t :: rest =>
      rw [callsOfItems, wellFormedCalls_append] at ht
      rw [renderItems] at hn ⊢
      rw [toValues, List.append_assoc]
      by_cases hrest : rest = []
      · subst hrest
        simp only [List.isEmpty_nil, if_true, List.append_nil] at hn
        obtain ⟨u, hvalue, hu⟩ := value_render t ht.1 (n := n) (r := closeBracket :: r)
          (boundary_cons (.inr (.inl rfl))) (by omega)
        exact items_last hvalue (by rw [hu, skipSpace_cons rfl])
      · have hsome : rest.isEmpty = false := by simpa using hrest
        simp only [hsome, if_neg Bool.false_ne_true, List.length_append, List.length_cons] at hn ⊢
        have hmore := items_render rest hrest ht.2 (n := n) (r := r) (by omega)
        obtain ⟨u, hvalue, hu⟩ := value_render t ht.1 (n := n)
          (r := comma :: (renderItems rest ++ ([closeBracket] ++ r))) (boundary_cons (.inl rfl))
          (by omega)
        exact items_cons hvalue (by rw [hu, skipSpace_cons rfl]) hmore

theorem members_render (ms : List (Bytes × CallTree)) (hne : ms ≠ [])
    (ht : WellFormedCalls (callsOfMembers ms)) {n : Nat} {r : Bytes}
    (hn : (renderMembers ms).length + 2 ≤ n) :
    members n (renderMembers ms ++ ([closeBrace] ++ r)) = some (toMembers ms, r) := by
  obtain ⟨n, rfl⟩ : ∃ m, n = m + 1 := ⟨n - 1, by omega⟩
  match ms with
  | [] => exact absurd rfl hne
  | (k, t) :: rest =>
      rw [callsOfMembers, wellFormedCalls_cons, wellFormedCalls_append] at ht
      rw [renderMembers] at hn ⊢
      rw [toMembers]
      simp only [List.length_append, List.length_cons] at hn
      have hkey : ∀ more, stringBody n (jsonEscapeString k ++ quote :: more) = some (k, more) :=
        fun more => value_escapedString (by omega)
      have htext : ∀ more, JsonWriter.escapedString k ++ colon :: (render t ++ more) ++
          ([closeBrace] ++ r) =
          quote :: (jsonEscapeString k ++ quote :: colon :: (render t ++ (more ++
            ([closeBrace] ++ r)))) := by
        intro more
        simp [JsonWriter.escapedString]
      rw [htext]
      by_cases hrest : rest = []
      · subst hrest
        simp only [List.isEmpty_nil, if_true, List.length_nil] at hn ⊢
        obtain ⟨u, hvalue, hu⟩ := value_render t ht.2.1 (n := n) (r := closeBrace :: r)
          (boundary_cons (.inr (.inr rfl))) (by omega)
        exact members_last (hkey _) hvalue (by rw [hu, skipSpace_cons rfl])
      · have hsome : rest.isEmpty = false := by simpa using hrest
        simp only [hsome, if_neg Bool.false_ne_true, List.length_cons] at hn ⊢
        have hmore := members_render rest hrest ht.2.2 (n := n) (r := r) (by omega)
        obtain ⟨u, hvalue, hu⟩ := value_render t ht.2.1 (n := n)
          (r := comma :: (renderMembers rest ++ ([closeBrace] ++ r))) (boundary_cons (.inl rfl))
          (by omega)
        exact members_cons (hkey _) hvalue (by rw [hu, skipSpace_cons rfl]) hmore

end

/-- **Parsing the text of a tree gives its value.** -/
theorem parse_render {t : CallTree} (ht : WellFormedCalls (callsOf t)) :
    parse (render t) = some (toValue t) := by
  obtain ⟨u, hvalue, hu⟩ := value_render t ht boundary_nil (le_refl _)
  rw [List.append_nil] at hvalue
  exact parse_of_value hvalue hu

end CallTree

/-! ## The writer emits the tree of its calls -/

namespace Position

theorem wellFormedCalls_close {path : List Parent} {t : CallTree}
    (hpath : WellFormedCalls (callsOfPath path)) (ht : WellFormedCalls (callsOf t)) :
    WellFormedCalls (callsOf (close path t)) := by
  induction path generalizing t with
  | nil => exact ht
  | cons p path ih =>
      cases p with
      | array items =>
          rw [callsOfPath, wellFormedCalls_append, wellFormedCalls_cons] at hpath
          refine ih hpath.1 ?_
          rw [callsOf, wellFormedCalls_cons, wellFormedCalls_append, callsOfItems_append,
            wellFormedCalls_append]
          exact ⟨trivial, ⟨hpath.2.2, ht⟩, by simp [WellFormedCalls, Call.WellFormed]⟩
      | object ms k =>
          rw [callsOfPath, wellFormedCalls_append, wellFormedCalls_cons,
            wellFormedCalls_append] at hpath
          refine ih hpath.1 ?_
          rw [callsOf, wellFormedCalls_cons, wellFormedCalls_append, callsOfMembers_append,
            wellFormedCalls_append, wellFormedCalls_cons]
          exact ⟨trivial, ⟨hpath.2.2.1, trivial, ht⟩, by simp [WellFormedCalls, Call.WellFormed]⟩

theorem wellFormedCalls_completion {p : Position} (h : WellFormedCalls p.callsSoFar) :
    WellFormedCalls (callsOf p.completion) := by
  cases p with
  | slot path =>
      exact wellFormedCalls_close h (by simp [callsOf, WellFormedCalls, Call.WellFormed])
  | members ms path =>
      rw [callsSoFar, wellFormedCalls_append, wellFormedCalls_cons] at h
      refine wellFormedCalls_close h.1 ?_
      rw [callsOf, wellFormedCalls_cons, wellFormedCalls_append]
      exact ⟨trivial, h.2.2, by simp [WellFormedCalls, Call.WellFormed]⟩
  | finished t => exact h

end Position

open Position

/-- One top-level value has been completed. -/
def JsonWriter.Complete (w : JsonWriter) : Prop :=
  w.ok = true ∧ w.stack = [] ∧ w.started = true

theorem position_of_ok (h : (w.reset.calls cs).ok = true) :
    ∃ p, w.reset.calls cs = stateOf p ∧ p.callsSoFar = cs := by
  have hrun := calls_stateOf (.slot []) cs
  cases hp : (slot []).calls cs with
  | none =>
      rw [hp] at hrun
      have hstuck : (w.reset.calls cs).ok = false := hrun
      rw [hstuck] at h
      exact Bool.noConfusion h
  | some p =>
      rw [hp] at hrun
      exact ⟨p, hrun, by simpa [callsSoFar, callsOfPath] using callsSoFar_calls hp⟩

theorem calls_tree (w : JsonWriter) (t : CallTree) :
    w.reset.calls (callsOf t) = stateOf (.finished t) := by
  have hrun := calls_stateOf (.slot []) (callsOf t)
  rw [calls_callsOf t []] at hrun
  exact hrun

/-- **An error is recorded exactly when the calls are no prefix of a well-formed sequence.** -/
theorem not_ok_iff (hraw : WellFormedCalls cs) :
    (w.reset.calls cs).ok = false ↔ ¬ ∃ t, WellFormedCalls (callsOf t) ∧ cs <+: callsOf t := by
  rw [← not_iff_not, not_not, Bool.not_eq_false]
  constructor
  · intro hok
    obtain ⟨p, -, rfl⟩ := position_of_ok hok
    exact ⟨p.completion, wellFormedCalls_completion hraw, callsSoFar_completion p⟩
  · rintro ⟨t, -, rest, ht⟩
    by_contra hnot
    have hall : w.reset.calls (callsOf t) = w.reset.calls cs := by
      rw [← ht, JsonWriter.calls_append, JsonWriter.calls_of_not_ok hnot]
    rw [calls_tree] at hall
    rw [← hall] at hnot
    exact hnot rfl

/-- **What is written without an error is the beginning of a JSON text.** -/
theorem out_prefix (hraw : WellFormedCalls cs) (hok : (w.reset.calls cs).ok = true) :
    ∃ rest v, parse ((w.reset.calls cs).out ++ rest) = some v := by
  obtain ⟨p, hstate, rfl⟩ := position_of_ok hok
  obtain ⟨rest, hrest⟩ := text_completion p
  refine ⟨rest, toValue p.completion, ?_⟩
  have hout : (w.reset.calls p.callsSoFar).out = p.text := by rw [hstate]; rfl
  rw [hout, hrest]
  exact parse_render (wellFormedCalls_completion hraw)

theorem tree_of_complete (h : (w.reset.calls cs).Complete) : ∃ t, cs = callsOf t := by
  obtain ⟨hok, hstack, hstarted⟩ := h
  obtain ⟨p, hstate, rfl⟩ := position_of_ok hok
  rw [hstate] at hstack hstarted
  cases p with
  | slot path =>
      rcases path with - | ⟨items | ⟨ms, k⟩, path⟩
      · exact Bool.noConfusion hstarted
      · exact absurd hstack (by simp [stateOf, slotFrames])
      · exact absurd hstack (by simp [stateOf, slotFrames])
  | members ms path => exact absurd hstack (by simp [stateOf])
  | finished t => exact ⟨t, rfl⟩

/-- **The first error stays, and nothing is written from the call on that records it.** -/
theorem first_error_kept {before after : List Call} {c : Call} (hok : (w.calls before).ok = true)
    (herr : (w.calls (before ++ [c])).ok = false) :
    (w.calls (before ++ c :: after)).error = (w.calls (before ++ [c])).error ∧
      (w.calls (before ++ c :: after)).out = (w.calls before).out := by
  have hnot : ¬ (w.calls (before ++ [c])).ok = true := by simp [herr]
  have hsame : w.calls (before ++ c :: after) = w.calls (before ++ [c]) := by
    rw [List.append_cons, JsonWriter.calls_append, JsonWriter.calls_of_not_ok hnot]
  rw [hsame]
  refine ⟨rfl, ?_⟩
  rw [JsonWriter.calls_concat] at hnot ⊢
  exact JsonWriter.call_out_of_not_ok hok hnot

/-- **The writer emits exactly the tree of its calls.** -/
theorem writer_emits_tree (w : JsonWriter) (cs : List Call) (hraw : WellFormedCalls cs) :
    ((w.reset.calls cs).ok = false ↔
      ¬ ∃ t, WellFormedCalls (callsOf t) ∧ cs <+: callsOf t) ∧
    (∀ before c after, cs = before ++ c :: after → (w.reset.calls before).ok = true →
      (w.reset.calls (before ++ [c])).ok = false →
        (w.reset.calls cs).error = (w.reset.calls (before ++ [c])).error ∧
        (w.reset.calls cs).out = (w.reset.calls before).out) ∧
    ((w.reset.calls cs).ok = true → ∃ rest v, parse ((w.reset.calls cs).out ++ rest) = some v) ∧
    ((w.reset.calls cs).Complete ↔ ∃ t, cs = callsOf t) ∧
    (∀ t, cs = callsOf t → parse (w.reset.calls cs).out = some (toValue t)) ∧
    Function.Injective jsonEscapeString ∧
    ∀ s, jsonUnescapeString (jsonEscapeString s) = some s := by
  refine ⟨not_ok_iff hraw, ?_, out_prefix hraw, ⟨tree_of_complete, ?_⟩, ?_,
    jsonEscapeString_injective, jsonUnescapeString_jsonEscapeString⟩
  · rintro before c after rfl hok herr
    exact first_error_kept hok herr
  · rintro ⟨t, rfl⟩
    rw [calls_tree]
    exact ⟨rfl, rfl, rfl⟩
  · rintro t rfl
    rw [calls_tree]
    exact parse_render hraw

/-- `{"n":7,"q\"":[[],null]}`, whose inner array comes as a raw text. -/
def sampleTree : CallTree :=
  .object [([0x6E], .scalar (.integer 7)),
    ([0x71, 0x22], .array [.scalar (.raw [0x5B, 0x5D]), .scalar .null])]

theorem wellFormedCalls_sampleTree : WellFormedCalls (callsOf sampleTree) := by
  have hcalls : callsOf sampleTree = [.beginObject, .key [0x6E], .value (.integer 7),
      .key [0x71, 0x22], .beginArray, .value (.raw [0x5B, 0x5D]), .value .null, .endArray,
      .endObject] := rfl
  rw [hcalls]
  intro c hc
  fin_cases hc <;> trivial

theorem writer_emits_tree_sampleTree :
    WellFormedCalls (callsOf sampleTree) ∧
    parse (({} : JsonWriter).reset.calls (callsOf sampleTree)).out = some (toValue sampleTree) :=
  ⟨wellFormedCalls_sampleTree,
    (writer_emits_tree {} (callsOf sampleTree) wellFormedCalls_sampleTree).2.2.2.2.1
      sampleTree rfl⟩

end CodeScope.Util
