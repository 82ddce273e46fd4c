import CodeScope.Verify.Verifiers

/-! # The names of a capability

What the seven name arms of `implementingEntitiesFor` accept: the spellings that begin with one
another letter for letter, and by accident some more. A subject goes into its patterns with its
wildcards in force, and the length of a subject is taken before its underscores are removed. -/

namespace CodeScope.Verify

open Text SqlText Store

/-! ## The rule -/

/-- One of two texts begins with the other, up to the case of ASCII letters, and the beginning is
    long enough. -/
def BeginsOther (a b : Str) : Prop :=
  (kMinCapabilityPrefixLen ≤ a.length ∧ lower a <+: lower b) ∨
    (kMinCapabilityPrefixLen ≤ b.length ∧ lower b <+: lower a)

/-- A name and a subject are spellings of one thing. -/
def SameSpelling (name subject : Str) : Prop :=
  lower name = lower subject ∨ BeginsOther name subject ∨
    BeginsOther (deUnderscored name) (deUnderscored subject) ∨
    ('_' ∈ name ∧ BeginsOther (deUnderscored (afterFirst '_' name)) (deUnderscored subject))

/-- An entity is called within its project, or exported. -/
def CalledOrExported (db : Facts) (project : ℕ) (e : EntityRow) : Prop :=
  (∃ r ∈ db.relation, r.project = project ∧ r.type = kRelationTypeCalls ∧ r.targetId = e.id) ∨
    e.visibility = 1

/-- The ids are those of the implementing entities, each once. -/
def ExactlyImplementing (db : Facts) (project : ℕ) (subject : Str) (ids : List Int) : Prop :=
  ids.Nodup ∧ ∀ id, id ∈ ids ↔ ∃ e ∈ db.entity.rows, e.id = id ∧ e.project = project ∧
    CalledOrExported db project e ∧ SameSpelling e.name subject

/-! ## Accidents -/

/-- A wildcard in the pattern lets it begin the text. -/
def WildcardHit (pattern s : Str) : Prop :=
  ('%' ∈ pattern ∨ '_' ∈ pattern) ∧ InitialLike (lower pattern) (lower s)

/-- What an arm without underscores accepts by accident: a wildcard in force, or a subject that has
    become too short. -/
def StrippedHit (entityName subject : Str) : Prop :=
  kMinCapabilityPrefixLen ≤ entityName.length ∧
    (WildcardHit subject entityName ∨ WildcardHit entityName subject ∨
      (subject.length < kMinCapabilityPrefixLen ∧ lower subject <+: lower entityName))

/-- What the arms accept by accident. -/
def Accident (name subject : Str) : Prop :=
  kMinCapabilityPrefixLen ≤ subject.length ∧ kMinCapabilityPrefixLen ≤ name.length ∧
    (WildcardHit subject name ∨ StrippedHit (deUnderscored name) (deUnderscored subject) ∨
      ('_' ∈ name ∧
        StrippedHit (deUnderscored (afterFirst '_' name)) (deUnderscored subject)))

/-! ## One arm -/

theorem likePrefix_iff (a b : Str) :
    likePrefix a b = true ↔ lower b <+: lower a ∨ WildcardHit b a := by
  rw [likePrefix, like_plain_any, WildcardHit]
  by_cases hwild : '%' ∈ b ∨ '_' ∈ b
  · constructor
    · exact fun h => Or.inr ⟨hwild, h⟩
    · rintro (h | h)
      · refine initialLike_of_initial ?_
        rwa [lower_lower, lower_lower]
      · exact h.2
  · have hplain : '%' ∉ lower b ∧ '_' ∉ lower b := by
      rw [mem_lower_iff (by decide), mem_lower_iff (by decide)]
      exact not_or.mp hwild
    rw [initialLike_iff hplain.1 hplain.2, lower_lower, lower_lower]
    exact ⟨Or.inl, fun h => h.resolve_right fun hw => hwild hw.1⟩

theorem literalPattern_eq (name : Str) :
    literalPattern name = escapeWith '\\' ['%', '_', '\\'] name := by
  induction name with
  | nil => rfl
  | cons c name ih =>
      have hcons : literalPattern (c :: name) = literalPattern [c] ++ literalPattern name := by
        simp [literalPattern, replaceChar]
      have hone : literalPattern [c] = if c ∈ ['%', '_', '\\'] then ['\\', c] else [c] := by
        by_cases hslash : c = '\\'
        · subst hslash
          rfl
        · by_cases hany : c = '%'
          · subst hany
            rfl
          · by_cases hunder : c = '_'
            · subst hunder
              rfl
            · simp [literalPattern, replaceChar, hslash, hany, hunder]
      rw [hcons, hone, ih]
      rfl

theorem literal_arm_iff (name subject : Str) :
    like (some '\\') (lower (literalPattern name) ++ ['%']) (lower subject) = true ↔
      lower name <+: lower subject := by
  rw [literalPattern_eq, lower_escapeWith, like_escapeWith_any, lower_lower, lower_lower]

theorem initial_length {a b : Str} (h : lower a <+: lower b) : a.length ≤ b.length := by
  simpa [lower] using h.length_le

theorem BeginsOther.long {a b : Str} (h : BeginsOther a b) :
    kMinCapabilityPrefixLen ≤ a.length ∧ kMinCapabilityPrefixLen ≤ b.length := by
  rcases h with ⟨hlong, h⟩ | ⟨hlong, h⟩
  · exact ⟨hlong, hlong.trans (initial_length h)⟩
  · exact ⟨hlong.trans (initial_length h), hlong⟩

/-- An arm without underscores accepts the beginnings, and its accidents. -/
theorem eitherPrefix_iff (entityName subject : Str) :
    eitherPrefix entityName subject = true ↔
      BeginsOther entityName (deUnderscored subject) ∨
        StrippedHit entityName (deUnderscored subject) := by
  rw [eitherPrefix, Bool.and_eq_true, Bool.or_eq_true, decide_eq_true_eq, likePrefix_iff,
    likePrefix_iff]
  constructor
  · rintro ⟨hlong, (hsub | hwild) | (hent | hwild)⟩
    · by_cases hs : kMinCapabilityPrefixLen ≤ (deUnderscored subject).length
      · exact Or.inl (Or.inr ⟨hs, hsub⟩)
      · exact Or.inr ⟨hlong, Or.inr (Or.inr ⟨by omega, hsub⟩)⟩
    · exact Or.inr ⟨hlong, Or.inl hwild⟩
    · exact Or.inl (Or.inl ⟨hlong, hent⟩)
    · exact Or.inr ⟨hlong, Or.inr (Or.inl hwild)⟩
  · rintro (h | ⟨hlong, hwild | hwild | ⟨-, hsub⟩⟩)
    · refine ⟨h.long.1, ?_⟩
      rcases h with ⟨-, hent⟩ | ⟨-, hsub⟩
      · exact Or.inr (Or.inl hent)
      · exact Or.inl (Or.inl hsub)
    · exact ⟨hlong, Or.inl (Or.inr hwild)⟩
    · exact ⟨hlong, Or.inr (Or.inr hwild)⟩
    · exact ⟨hlong, Or.inl (Or.inl hsub)⟩

/-! ## All arms -/

theorem length_deUnderscored_le (s : Str) : (deUnderscored s).length ≤ s.length := by
  induction s with
  | nil => exact le_rfl
  | cons c s ih =>
      have hcons : deUnderscored (c :: s) = (if c = '_' then [] else [c]) ++ deUnderscored s := rfl
      rw [hcons, List.length_append, List.length_cons]
      split_ifs
      · rw [List.length_nil]
        omega
      · rw [List.length_singleton]
        omega

theorem length_afterFirst_le (sep : Char) (s : Str) : (afterFirst sep s).length ≤ s.length := by
  rw [afterFirst, List.length_tail]
  exact (Nat.sub_le _ _).trans (List.dropWhile_sublist _).length_le

theorem SameSpelling.long {name subject : Str} (h : SameSpelling name subject)
    (hne : lower name ≠ lower subject) :
    kMinCapabilityPrefixLen ≤ subject.length ∧ kMinCapabilityPrefixLen ≤ name.length := by
  rcases h with h | h | h | ⟨-, h⟩
  · exact absurd h hne
  · exact ⟨h.long.2, h.long.1⟩
  · exact ⟨h.long.2.trans (length_deUnderscored_le _), h.long.1.trans (length_deUnderscored_le _)⟩
  · exact ⟨h.long.2.trans (length_deUnderscored_le _),
      h.long.1.trans ((length_deUnderscored_le _).trans (length_afterFirst_le _ _))⟩

/-- **The arms accept the names of the same spelling, and their accidents.** -/
theorem namesCapability_iff (name subject : Str) :
    namesCapability name subject = true ↔ SameSpelling name subject ∨ Accident name subject := by
  simp only [namesCapability, Bool.or_eq_true, Bool.and_eq_true, decide_eq_true_eq,
    likePrefix_iff, literal_arm_iff, eitherPrefix_iff]
  constructor
  · rintro (heq | ⟨⟨hsub, hname⟩, ((((hforward | hwild) | hback) | (hstripped | hhit)) |
      ⟨hunder, (hlang | hhit)⟩)⟩)
    · exact Or.inl (Or.inl heq)
    · exact Or.inl (Or.inr (Or.inl (Or.inr ⟨hsub, hforward⟩)))
    · exact Or.inr ⟨hsub, hname, Or.inl hwild⟩
    · exact Or.inl (Or.inr (Or.inl (Or.inl ⟨hname, hback⟩)))
    · exact Or.inl (Or.inr (Or.inr (Or.inl hstripped)))
    · exact Or.inr ⟨hsub, hname, Or.inr (Or.inl hhit)⟩
    · exact Or.inl (Or.inr (Or.inr (Or.inr ⟨hunder, hlang⟩)))
    · exact Or.inr ⟨hsub, hname, Or.inr (Or.inr ⟨hunder, hhit⟩)⟩
  · rintro (hsame | ⟨hsub, hname, hhit⟩)
    · by_cases heq : lower name = lower subject
      · exact Or.inl heq
      · refine Or.inr ⟨hsame.long heq, ?_⟩
        rcases hsame with heq' | (⟨-, hback⟩ | ⟨-, hforward⟩) | hstripped | ⟨hunder, hlang⟩
        · exact absurd heq' heq
        · exact Or.inl (Or.inl (Or.inr hback))
        · exact Or.inl (Or.inl (Or.inl (Or.inl hforward)))
        · exact Or.inl (Or.inr (Or.inl hstripped))
        · exact Or.inr ⟨hunder, Or.inl hlang⟩
    · refine Or.inr ⟨⟨hsub, hname⟩, ?_⟩
      rcases hhit with hwild | hhit | ⟨hunder, hhit⟩
      · exact Or.inl (Or.inl (Or.inl (Or.inr hwild)))
      · exact Or.inl (Or.inr (Or.inr hhit))
      · exact Or.inr ⟨hunder, Or.inr hhit⟩

/-! ## The entities -/

theorem hasEvidence_iff {db : Facts} {project : ℕ} {e : EntityRow} :
    hasEvidence db project e = true ↔ CalledOrExported db project e := by
  simp only [hasEvidence, Facts.callsOf, Facts.relationsOf, CalledOrExported, Bool.or_eq_true,
    List.any_eq_true, List.mem_filter, decide_eq_true_eq]
  refine or_congr_left (exists_congr fun r => ?_)
  tauto

theorem mem_implementing {db : Facts} {project : ℕ} {subject : Str} {id : Int} :
    id ∈ implementing db project subject ↔ ∃ e ∈ db.entity.rows, e.id = id ∧ e.project = project ∧
      CalledOrExported db project e ∧ (SameSpelling e.name subject ∨ Accident e.name subject) := by
  simp only [implementing, Facts.entitiesOf, List.mem_map, List.mem_filter, Bool.and_eq_true,
    decide_eq_true_eq, namesCapability_iff, hasEvidence_iff]
  refine exists_congr fun e => ?_
  tauto

theorem implementing_nodup (db : Facts) (project : ℕ) (subject : Str) :
    (implementing db project subject).Nodup :=
  db.entity.ids.sublist ((List.filter_sublist.trans List.filter_sublist).map _)

theorem entity_eq {db : Facts} {e e' : EntityRow} (he : e ∈ db.entity.rows)
    (he' : e' ∈ db.entity.rows) (hid : e.id = e'.id) : e = e' :=
  List.inj_on_of_nodup_map db.entity.ids he he' hid

/-- **The implementing entities are the right ones exactly when no entity that is called or exported
    is hit by accident.** -/
theorem capability_names_iff (db : Facts) (project : ℕ) (subject : Str) (order : RowOrder) :
    (∃ ids, implementingEntitiesFor db project subject (order.arrange .implementing) none =
        some ids ∧ ExactlyImplementing db project subject ids) ↔
      ∀ e ∈ db.entity.rows, e.project = project → CalledOrExported db project e →
        Accident e.name subject → SameSpelling e.name subject := by
  have hperm := order.perm .implementing (implementing db project subject)
  constructor
  · intro ⟨ids, hids, _, hexact⟩ e he hproject hevidence hhit
    obtain rfl := Option.some.inj hids
    have hmem : e.id ∈ order.arrange .implementing (implementing db project subject) :=
      hperm.mem_iff.mpr (mem_implementing.mpr ⟨e, he, rfl, hproject, hevidence, Or.inr hhit⟩)
    obtain ⟨e', he', hid, _, _, hsame⟩ := (hexact e.id).mp hmem
    rwa [entity_eq he he' hid.symm]
  · intro hclean
    refine ⟨_, collect_none, hperm.nodup_iff.mpr (implementing_nodup db project subject), ?_⟩
    intro id
    rw [hperm.mem_iff, mem_implementing]
    refine exists_congr fun e => and_congr_right fun he => and_congr_right fun _ =>
      and_congr_right fun hproject => and_congr_right fun hevidence => ?_
    exact ⟨fun h => h.elim (fun hsame => hsame) (hclean e he hproject hevidence), Or.inl⟩

/-! ## A subject with an underscore -/

/-- One exported entity. -/
def exportedFacts (name : Str) : Facts where
  entity :=
    { rows := [{ id := 1, project := 1, kind := 0, name, qualifiedName := name,
                 filePath := str "io.cpp", language := str "cpp", startRow := 1, startCol := 0,
                 endRow := 9, endCol := 1, modulePath := str "", visibility := 1, arity := 0 }]
      ids := List.nodup_singleton _ }
  relation := []
  scope := []
  capability := []
  contract := []
  architectureEdge := []
  relationIds := List.nodup_nil
  scopeIds := List.nodup_nil

instance (a b : Str) : Decidable (BeginsOther a b) := inferInstanceAs (Decidable (_ ∨ _))

instance (name subject : Str) : Decidable (SameSpelling name subject) :=
  inferInstanceAs (Decidable (_ ∨ _))

/-- `readXfile` passes for an implementation of `read_file`. -/
theorem underscore_matches_any :
    ¬ ∃ ids, implementingEntitiesFor (exportedFacts (str "readXfile")) 1 (str "read_file")
      (fun rows => rows) none = some ids ∧
        ExactlyImplementing (exportedFacts (str "readXfile")) 1 (str "read_file") ids := by
  rintro ⟨ids, hids, _, hexact⟩
  have hid : (1 : Int) ∈ ids := by
    obtain rfl := Option.some.inj hids
    decide +kernel
  obtain ⟨e, he, _, _, _, hsame⟩ := (hexact 1).mp hid
  obtain rfl := List.mem_singleton.mp he
  exact absurd hsame (by decide +kernel)

end CodeScope.Verify
