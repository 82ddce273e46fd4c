import CodeScope.Library.JsonLayout
import CodeScope.Library.JsonNumbers
import CodeScope.Lsp.ResponseMatch

/-! # Message bodies

What a message body says, read off its members: it is the response to the request `k` when it has no
member `method` and its member `id` is the integer `k`. `isResponseFor` goes by the first literal
that reads like an id instead. -/

namespace CodeScope.Lsp

open JsonText JsonSyntax

/-! ## Bodies -/

/-- The members of an object as they are written: the pieces of each key, and the value. -/
def entriesOf : {k : Kind} → Tree k → List (List Piece × Tree .value)
  | _, .object members => entriesOf members
  | _, .lastMember _ key _ _ v _ => [(key, v)]
  | _, .member _ key _ _ v _ rest => (key, v) :: entriesOf rest
  | _, _ => []

/-- The text of a message: a JSON object with blanks around it. -/
structure MessageBody extends Layout where
  json : toLayout.All Token.IsJson
  is_object : (∃ blank, tree = .emptyObject blank) ∨ ∃ members, tree = .object members

/-- `id` -/
def idName : Bytes := [letterI, letterD]

/-- `method` -/
def methodName : Bytes := [0x6D, 0x65, 0x74, 0x68, 0x6F, 0x64]

namespace MessageBody

variable (b : MessageBody)

/-- The top-level members: what their keys stand for, escapes resolved, and their values. -/
def members : List (Bytes × Tree .value) := (entriesOf b.tree).map fun e => (decode e.1, e.2)

/-- The response to the request `k`. -/
def IsResponse (k : ℤ) : Prop :=
  (∀ m ∈ b.members, m.1 ≠ methodName) ∧
    ∃ m ∈ b.members, m.1 = idName ∧ ∃ n : NumberText, n.IsJson ∧ m.2 = .number n.text ∧ n.value = k

/-- The first literal, key or value at any depth, that is spelled `id` or ends in an escaped quote
    and `id`. -/
def firstId : Option Literal := (literals b.tree).find? fun l => idLike l.pieces

/-- The first literal that looks like an id is a key before the number `k` when the body is the
    response to `k`, and is not when it is none. -/
structure FirstIdFits (k : ℤ) : Prop where
  response : b.IsResponse k → ∃ l, b.firstId = some l ∧ l.Reads k
  other : ¬ b.IsResponse k → ∀ l, b.firstId = some l → ¬ l.Reads k

/-- What `isResponseFor` answers goes by the first literal that looks like an id. -/
theorem isResponseFor_text (k : ℤ) :
    isResponseFor b.text k = true ↔ ∃ l, b.firstId = some l ∧ l.Reads k := by
  obtain ⟨hfront, htree, hblank⟩ := b.json
  have hcloses : Closes b.back := ⟨b.back, [], hblank, by rw [List.append_nil], Or.inl rfl⟩
  have hback : behindId b.back = none := by
    have hskip := behindId_blank hblank []
    rwa [List.append_nil] at hskip
  have hhead : b.back.head? ≠ some letterI := by
    intro h
    exact (isSpace_ne (hblank letterI (List.mem_of_mem_head? h))).2 rfl
  have hfirst : b.firstId =
      ((hits b.tree b.back).find? fun p => idLike p.1.pieces).map Prod.fst := by
    rw [firstId, ← hits_literals b.tree b.back, List.find?_map]
    rfl
  rw [isResponseFor, Layout.text, behindId_blank hfront, behindId_text b.tree htree hhead,
    hback, Option.or_none, firstHit, hfirst]
  cases hfound : (hits b.tree b.back).find? fun p => idLike p.1.pieces with
  | none => simp
  | some p =>
      have hreads := readsId_hits (k := k) b.tree htree hcloses p
        (List.mem_of_find?_eq_some hfound)
      simp only [Option.map_some, Option.some.injEq, exists_eq_left']
      exact hreads

end MessageBody

open MessageBody in
/-- **The answer is right** exactly when the first literal that looks like an id fits. -/
theorem isResponseFor_correct_iff (b : MessageBody) (k : ℤ) :
    (isResponseFor b.text k = true ↔ b.IsResponse k) ↔ b.FirstIdFits k := by
  rw [isResponseFor_text]
  constructor
  · intro h
    exact ⟨h.mpr, fun hother l hl hreads => hother (h.mp ⟨l, hl, hreads⟩)⟩
  · intro h
    refine ⟨?_, h.response⟩
    rintro ⟨l, hl, hreads⟩
    by_contra hother
    exact h.other hother l hl hreads

/-! ## A request from the server -/

/-- `{"jsonrpc":"2.0","id":7,"method":"workspace/configuration"}`: a request that the server numbers
    itself. -/
def serverRequest : Tree .value :=
  .object (.member [] ([0x6A, 0x73, 0x6F, 0x6E, 0x72, 0x70, 0x63].map .raw) [] []
    (.string ([0x32, 0x2E, 0x30].map .raw)) []
    (.member [] (idName.map .raw) [] [] (.number [0x37]) []
      (.lastMember [] (methodName.map .raw) [] []
        (.string ([0x77, 0x6F, 0x72, 0x6B, 0x73, 0x70, 0x61, 0x63, 0x65, 0x2F, 0x63, 0x6F, 0x6E,
          0x66, 0x69, 0x67, 0x75, 0x72, 0x61, 0x74, 0x69, 0x6F, 0x6E].map .raw)) [])))

theorem map_raw_json {s : Bytes} (h : ∀ c ∈ s, c ≠ quote ∧ c ≠ backslash ∧ 0x20 ≤ c) :
    (Token.string (s.map .raw)).IsJson := by
  intro p hp
  obtain ⟨c, hc, rfl⟩ := List.mem_map.mp hp
  exact h c hc

theorem serverRequest_json : IsJson serverRequest := by
  have hblank : (Token.blank []).IsJson := fun c hc => absurd hc List.not_mem_nil
  have hseven : (Token.number [0x37]).IsJson :=
    ⟨⟨false, [0x37], none, none⟩,
      { whole := by simp [isDigit]
        fraction := by simp
        some_digit := by simp
        exponent := trivial
        whole_ne := by simp
        no_zero := by simp
        fraction_ne := by simp }, rfl⟩
  have hname : (Token.string (idName.map .raw)).IsJson :=
    map_raw_json (by simp [idName, letterI, letterD, quote, backslash])
  have hmethod : (Token.string (methodName.map .raw)).IsJson :=
    map_raw_json (by simp [methodName, quote, backslash])
  intro tok htok
  simp only [serverRequest, Tree.tokens, List.cons_append, List.nil_append, List.mem_cons,
    List.not_mem_nil, or_false] at htok
  rcases htok with rfl | rfl | rfl | rfl | rfl | rfl | rfl | rfl | rfl | rfl | rfl | rfl | rfl |
    rfl | rfl | rfl | rfl | rfl
  all_goals
    first
    | exact hblank
    | exact hname
    | exact hmethod
    | exact hseven
    | exact map_raw_json (by simp [quote, backslash])

/-- The request is taken for the response to the client's own request 7. -/
theorem request_taken_for_response :
    ∃ b : MessageBody, b.tree = serverRequest ∧ isResponseFor b.text 7 = true ∧
      ¬ b.IsResponse 7 := by
  have hblank : (Token.blank []).IsJson := fun c hc => absurd hc List.not_mem_nil
  refine ⟨⟨⟨[], serverRequest, []⟩, ⟨hblank, serverRequest_json, hblank⟩, Or.inr ⟨_, rfl⟩⟩, rfl,
    ?_, ?_⟩
  · refine (MessageBody.isResponseFor_text _ 7).mpr
      ⟨⟨idName.map .raw, .key [] [] (.number [0x37])⟩, rfl, by simp, by simp, ?_⟩
    exact ⟨[0x37], rfl, ⟨0x37, [], rfl, rfl⟩, by decide⟩
  · rintro ⟨hmethod, -⟩
    exact hmethod _ (List.mem_cons_of_mem _ (List.mem_cons_of_mem _ List.mem_cons_self)) rfl

end CodeScope.Lsp
