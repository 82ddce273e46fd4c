import CodeScope.Library.JsonBraces

/-! # The JSON in a worker's output

A worker prints log lines and, on its last line, the JSON object of its result. The extraction scans
the output once, passes over string literals, and takes the last object that it sees closed at the
top level. The scan does not start afresh with a line, so a brace or a quote that the noise leaves
open swallows the object. -/

namespace CodeScope.Scheduler

open JsonText

/-- The scanner's variables; the open braces are on the stack with the last one first. -/
structure OutputScan where
  inString : Bool
  escape : Bool
  braceStack : List ℕ
  best : Option (ℕ × ℕ)
deriving DecidableEq

namespace OutputScan

/-- The loop body at byte `i`. -/
def step (s : OutputScan) (i : ℕ) (b : UInt8) : OutputScan :=
  if s.inString then
    if s.escape then { s with escape := false }
    else if b = backslash then { s with escape := true }
    else if b = quote then { s with inString := false }
    else s
  else if b = quote then { s with inString := true }
  else if b = openBrace then { s with braceStack := i :: s.braceStack }
  else if b = closeBrace then
    match s.braceStack with
    | [] => s
    | start :: rest =>
      { s with braceStack := rest, best := if rest = [] then some (start, i) else s.best }
  else s

/-- The loop from byte `i` on. -/
def run (s : OutputScan) (i : ℕ) : Bytes → OutputScan
  | [] => s
  | b :: bytes => (s.step i b).run (i + 1) bytes

theorem run_append (s : OutputScan) (i : ℕ) (a b : Bytes) :
    s.run i (a ++ b) = (s.run i a).run (i + a.length) b := by
  induction a generalizing s i with
  | nil => rfl
  | cons c a ih => rw [List.cons_append, run, run, ih, List.length_cons, Nat.add_right_comm,
      Nat.add_assoc]

def start : OutputScan := ⟨false, false, [], none⟩

end OutputScan

def extractWorkerJson (stdout : Bytes) : Option Value :=
  match (OutputScan.start.run 0 stdout).best with
  | none => none
  | some (first, last) => parse ((stdout.drop first).take (last + 1 - first))

/-! ## The scanner reads braces -/

namespace OutputScan

/-- What the scanner knows about braces and strings. -/
def view (s : OutputScan) : Mode × ℕ :=
  (if s.inString then if s.escape then .escaped else .inString else .plain, s.braceStack.length)

/-- Escapes are inside strings, and the best object lies before byte `i`. -/
structure Sound (s : OutputScan) (i : ℕ) : Prop where
  escape : s.escape = true → s.inString = true
  best : ∀ r ∈ s.best, r.2 < i

theorem sound_start : start.Sound 0 :=
  ⟨fun h => absurd h Bool.false_ne_true, fun _ hr => absurd hr (by simp [start])⟩

theorem step_sound {s : OutputScan} {i : ℕ} (h : s.Sound i) (b : UInt8) :
    (s.step i b).Sound (i + 1) ∧ (s.step i b).view = s.view.1.next s.view.2 b := by
  obtain ⟨inString, escape, stack, best⟩ := s
  have hbest : ∀ r ∈ best, r.2 < i + 1 := fun r hr => Nat.lt_succ_of_lt (h.best r hr)
  cases inString with
  | true =>
      cases escape with
      | true => exact ⟨⟨fun _ => rfl, hbest⟩, rfl⟩
      | false =>
          by_cases hbackslash : b = backslash
          · subst hbackslash
            exact ⟨⟨fun _ => rfl, hbest⟩, rfl⟩
          · by_cases hquote : b = quote
            · subst hquote
              exact ⟨⟨fun he => absurd he Bool.false_ne_true, hbest⟩, rfl⟩
            · simp only [step, if_neg hbackslash, if_neg hquote]
              exact ⟨⟨fun _ => rfl, hbest⟩, (next_inString _ hquote hbackslash).symm⟩
  | false =>
      have hescape : escape = false := by
        cases escape with
        | false => rfl
        | true => exact absurd (h.escape rfl) Bool.false_ne_true
      subst hescape
      by_cases hquote : b = quote
      · subst hquote
        exact ⟨⟨fun he => absurd he Bool.false_ne_true, hbest⟩, rfl⟩
      · by_cases hopen : b = openBrace
        · subst hopen
          exact ⟨⟨fun he => absurd he Bool.false_ne_true, hbest⟩, rfl⟩
        · by_cases hclose : b = closeBrace
          · subst hclose
            cases stack with
            | nil => exact ⟨⟨fun he => absurd he Bool.false_ne_true, hbest⟩, rfl⟩
            | cons first rest =>
                refine ⟨⟨fun he => absurd he Bool.false_ne_true, fun r hr => ?_⟩, rfl⟩
                have hr : r ∈ if rest = [] then some (first, i) else best := hr
                split_ifs at hr
                · rw [← Option.some.inj hr]
                  exact Nat.lt_succ_self i
                · exact hbest r hr
          · have hc : IsPlain b := ⟨hquote, hopen, hclose⟩
            have hstep : step ⟨false, false, stack, best⟩ i b = ⟨false, false, stack, best⟩ := by
              simp only [step, if_neg hquote, if_neg hopen, if_neg hclose, Bool.false_eq_true,
                if_false]
            rw [hstep]
            exact ⟨⟨fun he => absurd he Bool.false_ne_true, hbest⟩, (next_plain _ hc).symm⟩

theorem run_sound {s : OutputScan} {i : ℕ} (h : s.Sound i) (bytes : Bytes) :
    (s.run i bytes).Sound (i + bytes.length) ∧
      (s.run i bytes).view = braces s.view.1 s.view.2 bytes := by
  induction bytes generalizing s i with
  | nil => exact ⟨h, rfl⟩
  | cons b bytes ih =>
      obtain ⟨hsound, hview⟩ := step_sound h b
      obtain ⟨hsound', hview'⟩ := ih hsound
      rw [List.length_cons, Nat.add_comm bytes.length, ← Nat.add_assoc]
      refine ⟨hsound', ?_⟩
      rw [run, hview', hview]
      rfl

/-! ## Balanced texts pass by -/

theorem run_stringBody {body : Bytes} (h : StringBody body) (stack : List ℕ)
    (best : Option (ℕ × ℕ)) (i : ℕ) :
    run ⟨true, false, stack, best⟩ i body = ⟨true, false, stack, best⟩ := by
  induction h generalizing i with
  | nil => rfl
  | char hquote hbackslash _ ih =>
      rw [run]
      simp only [step, if_neg hbackslash, if_neg hquote, if_true]
      exact ih _
  | escape c _ ih => exact ih _

/-- Below an open brace a balanced text changes nothing. -/
theorem run_balanced {s : Bytes} (h : Balanced s) (first : ℕ) (stack : List ℕ)
    (best : Option (ℕ × ℕ)) (i : ℕ) :
    run ⟨false, false, first :: stack, best⟩ i s = ⟨false, false, first :: stack, best⟩ := by
  induction h generalizing first stack i with
  | nil => rfl
  | char hc _ ih =>
      rw [run]
      simp only [step, if_neg hc.quote, if_neg hc.openBrace, if_neg hc.closeBrace,
        Bool.false_eq_true, if_false]
      exact ih _ _ _
  | literal inside _ ih =>
      have hquote : (step ⟨false, false, first :: stack, best⟩ i quote) =
          ⟨true, false, first :: stack, best⟩ := rfl
      rw [run, hquote, run_append, run_stringBody inside, run]
      exact ih _ _ _
  | group _ _ inside rest =>
      have hopen : (step ⟨false, false, first :: stack, best⟩ i openBrace) =
          ⟨false, false, i :: first :: stack, best⟩ := rfl
      rw [run, hopen, run_append, inside, run]
      exact rest _ _ _

theorem run_group {inner : Bytes} (h : Balanced inner) (best : Option (ℕ × ℕ)) (i : ℕ) :
    run ⟨false, false, [], best⟩ i (openBrace :: (inner ++ [closeBrace])) =
      ⟨false, false, [], some (i, i + inner.length + 1)⟩ := by
  have hopen : (step ⟨false, false, [], best⟩ i openBrace) = ⟨false, false, [i], best⟩ := rfl
  rw [run, hopen, run_append, run_balanced h, Nat.add_right_comm]
  rfl

end OutputScan

/-! ## What survives -/

def newline : UInt8 := 0x0A

theorem closed_newline (noise : Bytes) :
    braces .plain 0 (noise ++ [newline]) = (.plain, 0) ↔ Closed noise := by
  rw [closed_iff, braces_append]
  generalize braces .plain 0 noise = r
  obtain ⟨m, opened⟩ := r
  cases m with
  | plain => exact Iff.rfl
  | inString => exact iff_of_false (by simp [braces, Mode.next, newline, backslash, quote]) (by simp)
  | escaped => exact iff_of_false (by simp [braces]) (by simp)

/-- What the scanner has read when the object begins. -/
def behind (noise : Bytes) : OutputScan := OutputScan.start.run 0 (noise ++ [newline])

theorem behind_sound (noise : Bytes) :
    (behind noise).Sound (noise ++ [newline]).length ∧
      (behind noise).view = braces .plain 0 (noise ++ [newline]) := by
  have h := OutputScan.run_sound OutputScan.sound_start (noise ++ [newline])
  rwa [Nat.zero_add] at h

theorem scan_json (noise json : Bytes) :
    OutputScan.start.run 0 (noise ++ newline :: json) =
      (behind noise).run (noise ++ [newline]).length json := by
  rw [List.append_cons, OutputScan.run_append, Nat.zero_add]
  rfl

theorem view_eq_plain {s : OutputScan} {i : ℕ} (h : s.Sound i) (hview : s.view = (.plain, 0)) :
    s = ⟨false, false, [], s.best⟩ := by
  obtain ⟨inString, escape, stack, best⟩ := s
  obtain ⟨hmode, hstack⟩ := Prod.mk.inj hview
  have hstack : stack = [] := List.length_eq_zero_iff.mp hstack
  subst hstack
  cases inString with
  | true => cases escape <;> exact absurd hmode (by simp)
  | false =>
      cases escape with
      | false => rfl
      | true => exact absurd (h.escape rfl) Bool.false_ne_true

variable {json : Bytes}

theorem extract_of_closed {noise : Bytes} {o : Value} (hnoise : Closed noise)
    (hjson : IsObjectText json o) : extractWorkerJson (noise ++ newline :: json) = some o := by
  obtain ⟨hsound, hview⟩ := behind_sound noise
  rw [(closed_newline noise).mpr hnoise] at hview
  obtain ⟨inner, rfl, hinner⟩ := hjson.group
  rw [extractWorkerJson, scan_json, view_eq_plain hsound hview, OutputScan.run_group hinner]
  have hslice : ((noise ++ ([newline] ++ openBrace :: (inner ++ [closeBrace]))).drop
      (noise ++ [newline]).length).take ((noise ++ [newline]).length + inner.length + 1 + 1 -
        (noise ++ [newline]).length) = openBrace :: (inner ++ [closeBrace]) := by
    rw [← List.append_assoc noise [newline], List.drop_left, List.take_of_length_le]
    simp only [List.length_cons, List.length_append, List.length_nil]
    omega
  exact (congrArg parse hslice).trans hjson.reads

/-- If the text behind the noise closes no object, the answer is in the noise. -/
theorem extract_of_best {noise : Bytes}
    (h : ((behind noise).run (noise ++ [newline]).length json).best = (behind noise).best) :
    extractWorkerJson (noise ++ newline :: json) = extractWorkerJson (noise ++ [newline]) := by
  rw [extractWorkerJson, extractWorkerJson, scan_json, h]
  change _ = match (behind noise).best with
    | none => none
    | some (first, last) => parse (((noise ++ [newline]).drop first).take (last + 1 - first))
  cases hbest : (behind noise).best with
  | none => rfl
  | some r =>
      obtain ⟨first, last⟩ := r
      have hlast : last < (noise ++ [newline]).length := (behind_sound noise).1.best _ hbest
      dsimp only
      rw [← List.drop_take, ← List.drop_take, List.append_cons,
        List.take_append_of_le_length hlast]

/-! ## Two objects that the noise swallows -/

/-- `{}` -/
def emptyText : Bytes := [openBrace, closeBrace]

/-- `{"":0}` -/
def memberText : Bytes := [openBrace, quote, quote, colon, 0x30, closeBrace]

theorem isObjectText_empty : IsObjectText emptyText (.object []) := ⟨rfl, rfl, rfl⟩

theorem isObjectText_member : IsObjectText memberText (.object [([], .integer 0)]) :=
  ⟨rfl, rfl, rfl⟩

theorem best_of_inString (stack : List ℕ) (best : Option (ℕ × ℕ)) (i : ℕ)
    (h : json = emptyText ∨ json = memberText) :
    (OutputScan.run ⟨true, false, stack, best⟩ i json).best = best := by
  rcases h with rfl | rfl
  · rfl
  · rfl

theorem best_of_open (first : ℕ) (stack : List ℕ) (best : Option (ℕ × ℕ)) (i : ℕ) {o : Value}
    (h : IsObjectText json o) :
    (OutputScan.run ⟨false, false, first :: stack, best⟩ i json).best = best := by
  obtain ⟨inner, rfl, hinner⟩ := h.group
  rw [OutputScan.run_balanced (.group hinner .nil)]

theorem best_of_not_closed {noise : Bytes} (h : ¬Closed noise)
    (hjson : json = emptyText ∨ json = memberText) :
    ((behind noise).run (noise ++ [newline]).length json).best = (behind noise).best := by
  obtain ⟨hsound, hview⟩ := behind_sound noise
  have hopen : (behind noise).view ≠ (.plain, 0) := by
    rw [hview]
    exact fun heq => h ((closed_newline noise).mp heq)
  have hmode : (behind noise).view.1 ≠ .escaped := by
    rw [hview, braces_append]
    generalize braces .plain 0 noise = r
    obtain ⟨m, opened⟩ := r
    cases m with
    | plain => simp [braces, Mode.next, newline, quote, openBrace, closeBrace]
    | inString => simp [braces, Mode.next, newline, quote, backslash]
    | escaped => simp [braces]
  generalize (noise ++ [newline]).length = i at hsound ⊢
  generalize behind noise = s at hsound hopen hmode ⊢
  obtain ⟨inString, escape, stack, best⟩ := s
  cases inString with
  | true =>
      cases escape with
      | true => exact absurd rfl hmode
      | false => exact best_of_inString stack best i hjson
  | false =>
      have hescape : escape = false := by
        cases escape with
        | false => rfl
        | true => exact absurd (hsound.escape rfl) Bool.false_ne_true
      subst hescape
      cases stack with
      | nil => exact absurd rfl hopen
      | cons first stack =>
          rcases hjson with rfl | rfl
          · exact best_of_open first stack best i isObjectText_empty
          · exact best_of_open first stack best i isObjectText_member

end CodeScope.Scheduler
