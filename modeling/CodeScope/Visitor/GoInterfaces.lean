import CodeScope.Visitor.GoReading

/-! # The interfaces of a Go file and the types that satisfy them

The pass at the end of a file always comes to an end (`expanded_eq`), and what it records follows from
what has been read (`visit_eq`). As no embedded interface is ever read, it records the satisfaction
of interfaces only where nothing depends on what they embed. -/

namespace CodeScope.Visitor.GoVisitor

open Text (Str str)
open SyntaxTree (Node inner innerAs token)

/-! ## What a file declares -/

/-- The text of a field. -/
def fieldText (source : Str) (n : Node) (field : String) : Str :=
  match n.childByField (str field) with
  | some c => c.text source
  | none => []

mutual

/-- The name of a type without its arguments and, if that is asked for, without the pointers to
    it. -/
def baseName (source : Str) (pointers : Bool) : Node → Option Str
  | .mk kind named field start stop children =>
    if kind = str "type_identifier" then
      some ((Node.mk kind named field start stop children).text source)
    else if kind = str "generic_type" || kind = str "parenthesized_type" ||
        pointers && kind = str "pointer_type" then firstBaseName source pointers children
    else none

/-- That of the first named child. -/
def firstBaseName (source : Str) (pointers : Bool) : List Node → Option Str
  | [] => none
  | c :: rest =>
    if c.named then baseName source pointers c else firstBaseName source pointers rest

end

mutual

/-- The elements of an interface, with those of an interface that is written out as an element. -/
def elements : Node → List Node
  | .mk _ _ _ _ _ children => elementsIn children

def elementsIn : List Node → List Node
  | [] => []
  | c :: rest => (if c.named then elementsOf c else []) ++ elementsIn rest

def elementsOf : Node → List Node
  | .mk kind named field start stop children =>
    let n := Node.mk kind named field start stop children
    if kind = str "type_elem" ∧ n.namedChildren.map Node.kind = [str "interface_type"] then
      elementsBelow children
    else [n]

def elementsBelow : List Node → List Node
  | [] => []
  | c :: rest => (if c.named then elements c else []) ++ elementsBelow rest

end

section Declarations

variable (source : Str) (root : Node)

/-- A name is declared for the type that stands behind it. -/
def Declares (name : Str) (type : Node) : Prop :=
  ∃ p n, root.find p = some n ∧ (n.kind = str "type_spec" ∨ n.kind = str "type_alias") ∧
    fieldText source n "name" = name ∧ n.childByField (str "type") = some type

/-- An interface is declared under a name. -/
def DeclaresInterface (name : Str) (type : Node) : Prop :=
  Declares source root name type ∧ type.kind = str "interface_type"

/-- A type is declared that is no interface. -/
def DeclaresType (name : Str) : Prop :=
  ∃ type, Declares source root name type ∧ type.kind ≠ str "interface_type"

/-- A type name that stands alone as an element of an interface. -/
def Embeds (iface embedded : Str) : Prop :=
  ∃ type, DeclaresInterface source root iface type ∧ ∃ e ∈ elements type,
    e.kind = str "type_elem" ∧ ∃ t, e.namedChildren = [t] ∧ baseName source false t = some embedded

/-- A method is an element of an interface. -/
def HasElement (iface method : Str) : Prop :=
  ∃ type, DeclaresInterface source root iface type ∧ ∃ e ∈ elements type,
    e.kind = str "method_elem" ∧ fieldText source e "name" = method

/-- The method set of an interface, closed under embedding. -/
def InMethodSet (iface method : Str) : Prop :=
  ∃ j, Relation.ReflTransGen (Embeds source root) iface j ∧ HasElement source root j method

/-- A method is declared whose receiver is a type or a pointer to it. -/
def HasMethod (stype method : Str) : Prop :=
  ∃ d ∈ root.namedChildren, d.kind = str "method_declaration" ∧
    fieldText source d "name" = method ∧
    ∃ recv, d.childByField (str "receiver") = some recv ∧ ∃ pd ∈ recv.namedChildren,
      ∃ type, pd.childByField (str "type") = some type ∧ baseName source true type = some stype

/-- A type satisfies an interface. -/
structure Satisfies (stype iface : Str) : Prop where
  declared : DeclaresType source root stype
  distinct : stype ≠ iface
  nonempty : ∃ m, InMethodSet source root iface m
  methods : ∀ m, InMethodSet source root iface m → HasMethod source root stype m

end Declarations

/-- The pass at the end of the file comes to an end, whatever the order of its maps is, and records
    each type with each interface that it satisfies, once. -/
def RecordsSatisfaction (handler : JsHandler) (source : Str) (root : Node) : Prop :=
  ∀ interfaceOrder typeOrder : List Str → List Str,
    (∀ l, (interfaceOrder l).Perm l) → (∀ l, (typeOrder l).Perm l) →
    ∃ pairs, visit handler source interfaceOrder typeOrder root = some pairs ∧ pairs.Nodup ∧
      ∀ stype iface, (stype, iface) ∈ pairs ↔ Satisfies source root stype iface

/-! ## What the pass goes by -/

section Reading

variable (handler : JsHandler) (source : Str) (root : Node)

/-- What is read for a type has what is read for an interface, of which there is something, and also
    what is read for the interfaces that are named like a method of that interface. -/
structure Provides (stype iface : Str) : Prop where
  nonempty : ∃ m, ReadsElement handler source root iface m
  own : ∀ m, ReadsElement handler source root iface m → ReadsMethod handler source root stype m
  named : ∀ j m, ReadsElement handler source root iface j → ReadsElement handler source root j m →
    ReadsMethod handler source root stype m

/-- Who has the methods that are read for an interface also has those of the interfaces embedded in
    it, and the other way round. -/
structure ReadsEnough : Prop where
  sound : ∀ stype iface, stype ≠ iface → Provides handler source root stype iface →
    DeclaresType source root stype ∧ (∃ m, InMethodSet source root iface m) ∧
      ∀ m, InMethodSet source root iface m → HasMethod source root stype m
  complete : ∀ stype iface, Satisfies source root stype iface →
    Provides handler source root stype iface

end Reading

variable {handler : JsHandler} {source : Str} {root : Node}

/-! ## The pass -/

theorem mem_valuesOf {entries : List (Str × Str)} {key value : Str} :
    value ∈ valuesOf entries key ↔ (key, value) ∈ entries := by
  simp only [valuesOf, List.mem_map, List.mem_filter, decide_eq_true_eq]
  constructor
  · intro ⟨e, ⟨he, hkey⟩, hvalue⟩
    rw [← hkey, ← hvalue]
    exact he
  · exact fun h => ⟨(key, value), ⟨h, rfl⟩, rfl⟩

theorem mem_keys {entries : List (Str × Str)} {key : Str} :
    key ∈ keys entries ↔ ∃ value, (key, value) ∈ entries := by
  simp only [keys, List.mem_dedup, List.mem_map]
  constructor
  · intro h
    obtain ⟨e, he, hkey⟩ := h
    exact ⟨e.2, hkey ▸ he⟩
  · intro h
    obtain ⟨value, h⟩ := h
    exact ⟨(key, value), h, rfl⟩

namespace Tables

variable {methods : List Str}

theorem mem_addNew {m m' : Str} : m' ∈ addNew methods m ↔ m' ∈ methods ∨ m' = m := by
  unfold addNew
  split
  · rename_i hmem
    rw [List.contains_iff_mem] at hmem
    exact ⟨Or.inl, fun h => h.elim id fun h => h ▸ hmem⟩
  · rw [List.mem_append, List.mem_singleton]

theorem mem_foldl_addNew {new : List Str} {m : Str} :
    m ∈ new.foldl addNew methods ↔ m ∈ methods ∨ m ∈ new := by
  induction new generalizing methods with
  | nil => simp
  | cons a new ih =>
      rw [List.foldl_cons, ih, mem_addNew, List.mem_cons, or_assoc]

theorem mem_foldl_methods {t : Tables} {found : List Str} {m : Str} :
    m ∈ found.foldl (fun methods emb => (valuesOf t.interfaceMethods emb).foldl addNew methods)
      methods ↔ m ∈ methods ∨ ∃ emb ∈ found, m ∈ valuesOf t.interfaceMethods emb := by
  induction found generalizing methods with
  | nil => simp
  | cons a found ih =>
      rw [List.foldl_cons, ih, mem_foldl_addNew, or_assoc]
      simp

/-- **The search for embedded interfaces ends**, whatever the tables hold, and what it comes to from
    an interface's own methods and from the interface itself gives its methods. -/
theorem expanded_eq (t : Tables) (iface : Str) :
    ∃ methods, t.expanded iface = some methods ∧
      ∀ m, m ∈ methods ↔ m ∈ valuesOf t.interfaceMethods iface ∨
        ∃ emb, m ∈ valuesOf t.interfaceMethods emb ∧
          ∃ a ∈ (if (valuesOf t.interfaceEmbeds iface).isEmpty then valuesOf t.interfaceMethods iface
              else valuesOf t.interfaceMethods iface ++ [iface]),
            Relation.TransGen (Frontier.Goes (valuesOf t.interfaceEmbeds)
              (fun emb => !(valuesOf t.interfaceMethods emb).isEmpty)
              (if (valuesOf t.interfaceEmbeds iface).isEmpty then [iface] else [])) a emb := by
  have hall : ∀ a, ∀ b ∈ valuesOf t.interfaceEmbeds a, b ∈ t.interfaceEmbeds.map Prod.snd :=
    fun a b hb => List.mem_map.mpr ⟨(a, b), mem_valuesOf.mp hb, rfl⟩
  obtain ⟨found, hrounds, hfound⟩ := Frontier.rounds_eq (valuesOf t.interfaceEmbeds)
    (fun emb => !(valuesOf t.interfaceMethods emb).isEmpty)
    (fun methods emb => (valuesOf t.interfaceMethods emb).foldl addNew methods)
    (t.interfaceEmbeds.map Prod.snd) hall (Nat.lt_succ_of_le (List.length_map _).le)
    (if (valuesOf t.interfaceEmbeds iface).isEmpty then [iface] else [])
    (if (valuesOf t.interfaceEmbeds iface).isEmpty then valuesOf t.interfaceMethods iface
      else valuesOf t.interfaceMethods iface ++ [iface])
    (valuesOf t.interfaceMethods iface)
  have hexpanded : t.expanded iface = some (found.foldl
      (fun methods emb => (valuesOf t.interfaceMethods emb).foldl addNew methods)
      (valuesOf t.interfaceMethods iface)) := by
    rw [← hrounds, expanded]
    cases (valuesOf t.interfaceEmbeds iface).isEmpty <;> rfl
  refine ⟨_, hexpanded, fun m => ?_⟩
  rw [mem_foldl_methods]
  refine or_congr Iff.rfl ⟨?_, ?_⟩
  · exact fun ⟨emb, hemb, hm⟩ => ⟨emb, hm, (hfound emb).mp hemb⟩
  · exact fun ⟨emb, hm, hreach⟩ => ⟨emb, (hfound emb).mpr hreach, hm⟩

theorem implementations_eq (t : Tables) (types : List Str) (htypes : types.Nodup)
    (ifaces : List Str) (hifaces : ifaces.Nodup) :
    ∃ pairs, t.implementations types ifaces = some pairs ∧ pairs.Nodup ∧
      ∀ stype iface, (stype, iface) ∈ pairs ↔ iface ∈ ifaces ∧
        ∃ methods, t.expanded iface = some methods ∧ methods ≠ [] ∧ stype ∈ types ∧
          stype ≠ iface ∧ ∀ m ∈ methods, m ∈ valuesOf t.structMethods stype := by
  induction ifaces with
  | nil => exact ⟨[], rfl, List.nodup_nil, by simp⟩
  | cons iface rest ih =>
      obtain ⟨others, hothers, hnodup, hmem⟩ := ih (List.nodup_cons.mp hifaces).2
      obtain ⟨methods, hmethods, -⟩ := t.expanded_eq iface
      obtain ⟨found, hfound⟩ : ∃ found, t.implementers types iface = some found :=
        ⟨_, by rw [implementers, hmethods, Option.map_some]⟩
      have hin : ∀ stype, stype ∈ found ↔ methods ≠ [] ∧ stype ∈ types ∧ stype ≠ iface ∧
          ∀ m ∈ methods, m ∈ valuesOf t.structMethods stype := by
        intro stype
        rw [implementers, hmethods, Option.map_some] at hfound
        obtain rfl := Option.some.inj hfound
        by_cases hempty : methods = []
        · simp [hempty]
        · rw [if_neg (by simpa using hempty)]
          simp [hempty]
      have honce : found.Nodup := by
        rw [implementers, hmethods, Option.map_some] at hfound
        obtain rfl := Option.some.inj hfound
        split
        · exact List.nodup_nil
        · exact htypes.filter _
      refine ⟨found.map (fun stype => (stype, iface)) ++ others, ?_, ?_, fun stype iface' => ?_⟩
      · rw [implementations, hfound, hothers]
        rfl
      · refine List.Nodup.append (honce.map fun a b h => (Prod.mk.inj h).1) hnodup ?_
        intro pair hfirst hlater
        obtain ⟨stype, -, rfl⟩ := List.mem_map.mp hfirst
        exact (List.nodup_cons.mp hifaces).1 ((hmem stype iface).mp hlater).1
      · rw [List.mem_append, hmem, List.mem_map]
        constructor
        · intro h
          rcases h with ⟨stype', hstype, heq⟩ | ⟨hiface, h⟩
          · obtain ⟨rfl, rfl⟩ := Prod.mk.inj heq
            obtain ⟨hne, hrest⟩ := (hin stype').mp hstype
            exact ⟨List.mem_cons_self, methods, hmethods, hne, hrest⟩
          · exact ⟨List.mem_cons_of_mem _ hiface, h⟩
        · intro ⟨hiface, methods', hmethods', hne, hrest⟩
          rcases List.mem_cons.mp hiface with rfl | hiface
          · obtain rfl := Option.some.inj (hmethods.symm.trans hmethods')
            exact Or.inl ⟨stype, (hin stype).mpr ⟨hne, hrest⟩, rfl⟩
          · exact Or.inr ⟨hiface, methods', hmethods', hne, hrest⟩

end Tables

theorem opens_of_readsElement {iface m : Str} (h : ReadsElement handler source root iface m) :
    Opens handler source root iface := by
  obtain ⟨n, ⟨r, ctx, hfollow⟩, -, hne, -⟩ := h
  exact opens_of_follow hfollow hne

/-- The methods that the search finds for an interface. -/
theorem mem_expanded (hfile : GoFile source root) {iface : Str} {methods : List Str}
    (hread : ∃ m, ReadsElement handler source root iface m)
    (hmethods : (collect handler source root).expanded iface = some methods) (m : Str) :
    m ∈ methods ↔ ReadsElement handler source root iface m ∨
      ∃ j, ReadsElement handler source root iface j ∧ ReadsElement handler source root j m := by
  obtain ⟨methods', hmethods', hmem⟩ := (collect handler source root).expanded_eq iface
  obtain rfl : methods = methods' := Option.some.inj (hmethods.symm.trans hmethods')
  have hembeds : ∀ a b, b ∈ valuesOf (collect handler source root).interfaceEmbeds a ↔
      b = a ∧ Opens handler source root a := fun a b =>
    mem_valuesOf.trans (mem_interfaceEmbeds hfile a b)
  have hopens : Opens handler source root iface := opens_of_readsElement hread.choose_spec
  have hself : (valuesOf (collect handler source root).interfaceEmbeds iface).isEmpty = false := by
    rw [List.isEmpty_eq_false_iff]
    exact List.ne_nil_of_mem ((hembeds iface iface).mpr ⟨rfl, hopens⟩)
  have helements : ∀ i j, j ∈ valuesOf (collect handler source root).interfaceMethods i ↔
      ReadsElement handler source root i j := fun i j =>
    mem_valuesOf.trans (mem_interfaceMethods hfile i j)
  rw [hmem, helements, hself]
  constructor
  · intro h
    rcases h with hm | ⟨emb, hm, a, ha, hchain⟩
    · exact Or.inl hm
    · have hstay : emb = a := Frontier.eq_of_chain (fun c d hd => ((hembeds c d).mp hd).1) hchain
      rw [hstay, helements] at hm
      rcases List.mem_append.mp ha with ha | ha
      · exact Or.inr ⟨a, (helements iface a).mp ha, hm⟩
      · rw [List.mem_singleton.mp ha] at hm
        exact Or.inl hm
  · intro h
    rcases h with hm | ⟨j, hj, hm⟩
    · exact Or.inl hm
    · refine Or.inr ⟨j, (helements j m).mpr hm, j,
        List.mem_append_left _ ((helements iface j).mpr hj),
        Relation.TransGen.single ⟨(hembeds j j).mpr ⟨rfl, opens_of_readsElement hm⟩, ?_,
          List.not_mem_nil⟩⟩
      rw [Bool.not_eq_true', List.isEmpty_eq_false_iff]
      exact List.ne_nil_of_mem ((helements j m).mpr hm)

/-- **What the pass records** follows from what has been read: it comes to an end, and records a type
    with an interface once if what is read for the type has what is read for the interface. -/
theorem visit_eq (handler : JsHandler) (hfile : GoFile source root)
    (interfaceOrder typeOrder : List Str → List Str)
    (hinterfaces : ∀ l, (interfaceOrder l).Perm l) (htypes : ∀ l, (typeOrder l).Perm l) :
    ∃ pairs, visit handler source interfaceOrder typeOrder root = some pairs ∧ pairs.Nodup ∧
      ∀ stype iface, (stype, iface) ∈ pairs ↔
        stype ≠ iface ∧ Provides handler source root stype iface := by
  have honce : ∀ entries : List (Str × Str), (keys entries).Nodup := fun _ => List.nodup_dedup _
  obtain ⟨pairs, hpairs, hnodup, hmem⟩ := (collect handler source root).implementations_eq _
    ((htypes _).nodup_iff.mpr (honce (collect handler source root).structMethods)) _
    ((hinterfaces _).nodup_iff.mpr (honce (collect handler source root).interfaceMethods))
  have helements : ∀ i j, (i, j) ∈ (collect handler source root).interfaceMethods ↔
      ReadsElement handler source root i j := mem_interfaceMethods hfile
  have hmethods : ∀ t m, m ∈ valuesOf (collect handler source root).structMethods t ↔
      ReadsMethod handler source root t m := fun t m =>
    mem_valuesOf.trans (mem_structMethods hfile t m)
  refine ⟨pairs, hpairs, hnodup, fun stype iface => ?_⟩
  rw [hmem, (hinterfaces _).mem_iff, (htypes _).mem_iff, mem_keys, mem_keys]
  simp only [helements, hmethods]
  constructor
  · intro ⟨hread, methods, hexpanded, _, _, hne, hall⟩
    have hin := mem_expanded hfile hread hexpanded
    exact ⟨hne, hread, fun m hm => hall m ((hin m).mpr (Or.inl hm)),
      fun j m hj hm => hall m ((hin m).mpr (Or.inr ⟨j, hj, hm⟩))⟩
  · intro ⟨hne, hprovides⟩
    obtain ⟨methods, hexpanded, -⟩ := (collect handler source root).expanded_eq iface
    have hin := mem_expanded hfile hprovides.nonempty hexpanded
    obtain ⟨m, hm⟩ := hprovides.nonempty
    refine ⟨⟨m, hm⟩, methods, hexpanded, List.ne_nil_of_mem ((hin m).mpr (Or.inl hm)), ?_, hne,
      fun m hm => ?_⟩
    · exact ⟨m, mem_valuesOf.mp ((hmethods stype m).mpr (hprovides.own m hm))⟩
    · rcases (hin m).mp hm with hm | ⟨j, hj, hm⟩
      · exact hprovides.own m hm
      · exact hprovides.named j m hj hm

/-- An interface with another embedded in it, and a type that has only its own method. -/
def embedding : Str :=
  str ("package p; type Reader interface\x7b Read() \x7d; type RW interface\x7b Reader; " ++
    "Write() \x7d; type File struct\x7b\x7d; func (f File) Write() \x7b\x7d")

def parameters (start : ℕ) : Node :=
  innerAs "parameters" "parameter_list" start (start + 2) [token "(" start, token ")" (start + 1)]

def readerType : Node :=
  innerAs "type" "interface_type" 23 42
    [token "interface" 23, token "\x7b" 32,
      inner "method_elem" 34 40 [innerAs "name" "field_identifier" 34 38 [], parameters 38],
      token "\x7d" 41]

def readWriterType : Node :=
  innerAs "type" "interface_type" 52 80
    [token "interface" 52, token "\x7b" 61,
      inner "type_elem" 63 69 [inner "type_identifier" 63 69 []], token ";" 69,
      inner "method_elem" 71 78 [innerAs "name" "field_identifier" 71 76 [], parameters 76],
      token "\x7d" 79]

def embeddingTree : Node :=
  inner "source_file" 0 126
    [inner "package_clause" 0 9 [token "package" 0, inner "package_identifier" 8 9 []],
      inner "type_declaration" 11 42
        [token "type" 11,
          inner "type_spec" 16 42 [innerAs "name" "type_identifier" 16 22 [], readerType]],
      inner "type_declaration" 44 80
        [token "type" 44,
          inner "type_spec" 49 80 [innerAs "name" "type_identifier" 49 51 [], readWriterType]],
      inner "type_declaration" 82 100
        [token "type" 82,
          inner "type_spec" 87 100
            [innerAs "name" "type_identifier" 87 91 [],
              innerAs "type" "struct_type" 92 100
                [token "struct" 92,
                  inner "field_declaration_list" 98 100 [token "\x7b" 98, token "\x7d" 99]]]],
      inner "method_declaration" 102 126
        [token "func" 102,
          innerAs "receiver" "parameter_list" 107 115
            [token "(" 107,
              inner "parameter_declaration" 108 114
                [innerAs "name" "identifier" 108 109 [],
                  innerAs "type" "type_identifier" 110 114 []],
              token ")" 114],
          innerAs "name" "field_identifier" 116 121 [], parameters 121,
          innerAs "body" "block" 124 126 [token "\x7b" 124, token "\x7d" 125]]]

def noHandler : JsHandler := fun _ _ _ _ _ _ => none

theorem embeddingTree_file : GoFile embedding embeddingTree := by
  have htypes : (embeddingTree.all fun n => decide (n.kind = str "type_spec" →
      ∀ c ∈ n.children, (c.all fun m => m.kind ≠ str "type_declaration") = true)) = true := by
    decide +kernel
  have hspecs : (embeddingTree.all fun n => decide (n.kind = str "type_spec" →
      TypeSpec embedding n)) = true := by decide +kernel
  refine ⟨fun p n hn => of_decide_eq_true (Node.everywhere_of_all hspecs p n hn),
    fun p n hn hkind c hc q m hm => ?_⟩
  have hall := of_decide_eq_true (Node.everywhere_of_all htypes p n hn) hkind c hc
  exact of_decide_eq_true (Node.everywhere_of_all hall q m hm)

theorem embeddingTree_visit :
    visit noHandler embedding id id embeddingTree = some [(str "File", str "RW")] := by
  unfold visit collect
  delta visitor visitNode JsVisitor.visitNode
  rw [nodeId_eq_agreedId]
  decide +kernel

/-- The type is recorded though it lacks the embedded method. -/
theorem not_records_embedding : ¬ RecordsSatisfaction noHandler embedding embeddingTree := by
  intro h
  obtain ⟨pairs, hpairs, -, hmem⟩ := h id id (fun _ => .rfl) (fun _ => .rfl)
  rw [embeddingTree_visit] at hpairs
  obtain rfl := Option.some.inj hpairs
  have hsatisfies := (hmem (str "File") (str "RW")).mp List.mem_cons_self
  have hreadWriter : DeclaresInterface embedding embeddingTree (str "RW") readWriterType :=
    ⟨⟨[2, 1], _, rfl, .inl rfl, by decide +kernel, rfl⟩, rfl⟩
  have hreader : DeclaresInterface embedding embeddingTree (str "Reader") readerType :=
    ⟨⟨[1, 1], _, rfl, .inl rfl, by decide +kernel, rfl⟩, rfl⟩
  have hembeds : Embeds embedding embeddingTree (str "RW") (str "Reader") :=
    ⟨readWriterType, hreadWriter, _, .head _, rfl, _, rfl, by decide +kernel⟩
  have hread : InMethodSet embedding embeddingTree (str "RW") (str "Read") :=
    ⟨str "Reader", .single hembeds, readerType, hreader, _, .head _, rfl, by decide +kernel⟩
  obtain ⟨d, hd, hkind, hname, -⟩ := hsatisfies.methods _ hread
  have hnone : ∀ d ∈ embeddingTree.namedChildren, d.kind = str "method_declaration" →
      fieldText embedding d "name" ≠ str "Read" := by decide +kernel
  exact hnone d hd hkind hname

end CodeScope.Visitor.GoVisitor
