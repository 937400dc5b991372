import StubClosure.Proofs.Listing.Names
import StubClosure.Proofs.Program.Accessors
import StubClosure.Proofs.Session.Faithful

/-!
# Folding accessors

What a reference to a method stands for is settled by the role that the method is declared with: an accessor stands for the first property that has it in the slot of its role, and every other method for itself (`StandsFor`). In a built program there always is such a property, so an accessor is never reported; a special method is, if its type has properties at all (`foldAccessor_of_declared`).

References come one after the other, and a session remembers those that it has been asked about. The report on a method is made at the first question for each site and never again, whatever role the reference itself tells (`run_normalizeAll`).
-/

namespace StubClosure

namespace Program

/-- The row is the first property of the method's type that has the method in the slot of its role. -/
def IsFirst (p : Program) (d : Member) (row : Property) : Prop :=
  ∃ before after, p.propertiesOf d.owner = before ++ row :: after ∧ row.Holds d.role d.toSignature ∧
    ∀ other ∈ before, ¬ other.Holds d.role d.toSignature

/-- What a method stands for that is declared with its role. -/
inductive StandsFor (p : Program) (d : Member) : Signature → Prop where
  | property {row : Property} (h : d.role.IsAccessor) (hrow : p.IsFirst d row) : StandsFor p d row.ref.toSignature
  | itself (h : ¬ d.role.IsAccessor) : StandsFor p d d.toSignature

/-- What is to be reported on a method that is declared with its role, where a site refers to it. -/
def reportsOn (p : Program) (d : Member) (site : Option Signature) : List Diagnostic :=
  if d.role = .special ∧ p.propertiesOf d.owner ≠ [] then [Reference.unknownSpecial d site] else []

variable {p : Program} {m d : Member}

/-! ## One reference -/

theorem any_same_iff (row : Property) (d : Member) :
    (row.slot? d.role).any (·.same d) = true ↔ row.Holds d.role d.toSignature := by
  simp [Property.Holds, Member.same, Option.any_eq_true]

theorem isFirst_of_owningProperty? {row : Property} (h : p.owningProperty? d = some row) : p.IsFirst d row := by
  obtain ⟨hholds, before, after, hrows, hbefore⟩ := List.find?_eq_some_iff_append.1 h
  refine ⟨before, after, hrows, (any_same_iff row d).1 hholds, fun other hother hno => ?_⟩
  have hnot := hbefore other hother
  rw [(any_same_iff other d).2 hno] at hnot
  cases hnot

theorem Slotted.exists_owningProperty? (hp : p.Slotted) (hd : d ∈ p.methodsOf d.owner) (hrole : d.role.IsAccessor) :
    ∃ row, p.owningProperty? d = some row := by
  obtain ⟨row, hrow, hholds⟩ := hp d.owner d hd hrole
  apply Option.isSome_iff_exists.1
  apply List.find?_isSome.2
  exact ⟨row, hrow, (any_same_iff row d).2 hholds⟩

theorem declarations_method (p : Program) (t : TypeId) : p.declarations t .method = p.methodsOf t := rfl

theorem Enters.find?_methodsOf (hp : p.Enters) {t : TypeId} {s : Signature} (hd : d ∈ p.methodsOf t)
    (hs : d.toSignature = s) : (p.methodsOf t).find? (·.toSignature = s) = some d :=
  (find?_eq_some_iff (hp.distinct t)).2 ⟨hd, hs⟩

theorem Enters.definition_of_mem (hp : p.Enters) (hd : d ∈ p.methodsOf m.owner) (hs : d.toSignature = m.toSignature) :
    p.definition m = d := by
  have hlook : p.declaration? m = (p.methodsOf m.owner).find? (·.toSignature = m.toSignature) := by
    unfold declaration? methodsOf
    cases p.type? m.owner <;> rfl
  rw [definition_eq, hlook, hp.find?_methodsOf hd hs, Option.getD_some]

theorem Enters.kind_of_mem (hp : p.Enters) {t : TypeId} (hd : d ∈ p.methodsOf t) : d.kind = .method := by
  refine (hp.owned t .method d ?_).2
  rwa [declarations_method]

/-- Which references are looked at is a matter of the role that the method is declared with. -/
theorem Enters.isFoldable_iff (hp : p.Enters) (hd : d ∈ p.methodsOf m.owner) (hs : d.toSignature = m.toSignature) :
    p.isFoldable m = true ↔ p.propertiesOf d.owner ≠ [] ∧ d.role ≠ .ordinary ∧ d.role ≠ .constructor := by
  have howner : m.owner = d.owner := congrArg Signature.owner hs.symm
  have hkind : d.kind = .method := hp.kind_of_mem hd
  have hmkind : m.kind = .method := (congrArg Signature.kind hs).symm.trans hkind
  unfold isFoldable
  rw [hp.definition_of_mem hd hs, howner]
  simp [hmkind, hkind, Member.isSpecialName, Member.isConstructor, and_assoc]

theorem IsFirst.propertiesOf_ne_nil {row : Property} (h : p.IsFirst d row) : p.propertiesOf d.owner ≠ [] := by
  obtain ⟨before, after, hrows, -⟩ := h
  simp [hrows]

theorem owningProperty?_of_special (h : d.role = .special) : p.owningProperty? d = none := by
  apply List.find?_eq_none.2
  simp [h, Property.slot?]

/-- **The reference to a declared method** stands for what its role there says, and what is reported is a matter of that role as well. -/
theorem Built.foldAccessor_of_declared (hp : p.Built) (hd : d ∈ p.methodsOf m.owner)
    (hs : d.toSignature = m.toSignature) (site : Option Signature) :
    p.StandsFor d (Reference.foldAccessor p m site).1.toSignature ∧
      (Reference.foldAccessor p m site).2 = p.reportsOn d site := by
  have howner : m.owner = d.owner := congrArg Signature.owner hs.symm
  have hfoldable := hp.enters.isFoldable_iff hd hs
  unfold Reference.foldAccessor reportsOn
  rw [hp.enters.definition_of_mem hd hs]
  by_cases hrole : d.role.IsAccessor
  · obtain ⟨row, hrow⟩ := hp.slotted.exists_owningProperty? (howner ▸ hd) hrole
    have hfirst := isFirst_of_owningProperty? hrow
    have hfold : p.isFoldable m = true := by
      apply hfoldable.2
      rcases hrole with hrole | hrole <;> simp [hrole, hfirst.propertiesOf_ne_nil]
    have hspecial : d.role ≠ .special := fun h => (Role.eq_special_iff.1 h).1 hrole
    rw [if_pos hfold, hrow]
    exact ⟨.property hrole hfirst, by simp [hspecial]⟩
  · have hitself : p.StandsFor d m.toSignature := hs ▸ .itself hrole
    split
    next hfold =>
      obtain ⟨hsome, hordinary, hconstructor⟩ := hfoldable.1 hfold
      have hspecial : d.role = .special := Role.eq_special_iff.2 ⟨hrole, hordinary, hconstructor⟩
      rw [owningProperty?_of_special hspecial, if_pos ⟨hspecial, hsome⟩]
      exact ⟨hitself, rfl⟩
    next hfold =>
      refine ⟨hitself, (if_neg ?_).symm⟩
      rintro ⟨hspecial, hsome⟩
      exact hfold (hfoldable.2 ⟨hsome, by simp [hspecial], by simp [hspecial]⟩)

theorem folded_of_kind_ne (h : m.kind ≠ .method) : p.folded m = m.toSignature := by
  have hnot : ¬ p.isFoldable m = true := by simp [isFoldable, h]
  unfold folded Reference.foldAccessor
  rw [if_neg hnot]

theorem Built.folded_folded (hp : p.Built) (hd : d ∈ p.methodsOf m.owner) (hs : d.toSignature = m.toSignature)
    {target : Member} (ht : target.toSignature = p.folded m) : p.folded target = p.folded m := by
  have hstands : p.StandsFor d (p.folded m) := (hp.foldAccessor_of_declared hd hs none).1
  generalize hfolded : p.folded m = s at hstands ht ⊢
  cases hstands with
  | itself => exact (hp.coherent.folded_congr (ht.trans hs)).trans hfolded
  | @property row _ hrow =>
    obtain ⟨before, after, hrows, -⟩ := hrow
    have hmem : row.ref ∈ p.declarations d.owner .property := by
      obtain ⟨def', hdef, hmem⟩ := exists_type?_of_mem_propertiesOf (hrows ▸ List.mem_append_right before List.mem_cons_self)
      rw [declarations_eq hdef]
      exact List.mem_map_of_mem hmem
    have hkind : target.kind = .property :=
      (congrArg Signature.kind ht).trans (hp.enters.owned d.owner .property row.ref hmem).2
    rw [folded_of_kind_ne (by simp [hkind]), ht]

end Program

/-! ## Questions in a row -/

namespace Reference

/-- Which member is referred to, and at which site. -/
abbrev Question := Member × Option Signature

/-- What a session knows a question by. -/
def Question.key (question : Question) : Signature × Option Signature := (question.1.toSignature, question.2)

/-- The question is about a method that its type declares. -/
def Question.Declared (p : Program) (question : Question) : Prop :=
  ∃ d ∈ p.methodsOf question.1.owner, d.toSignature = question.1.toSignature

/-- What the members stand for, asked one after the other. -/
def normalizeAll (p : Program) (questions : List Question) : Scan (List Member) :=
  questions.mapM fun question => normalize p question.1 question.2

/-- The keys that are not known yet, each at its first place. -/
def newKeys (known keys : List (Signature × Option Signature)) : List (Signature × Option Signature) :=
  (keys.filter (· ∉ known)).eraseDups

/-- What is reported when a question is asked for the first time. -/
def firstReports (p : Program) (key : Signature × Option Signature) : List Diagnostic :=
  ((p.methodsOf key.1.owner).find? (·.toSignature = key.1)).elim [] (p.reportsOn · key.2)

/-- The target is what the method asked for stands for, on the same type, and stands for itself from now on. -/
structure Answers (p : Program) (question : Question) (target : Member) : Prop where
  stands : ∀ d ∈ p.methodsOf question.1.owner, d.toSignature = question.1.toSignature →
    p.StandsFor d target.toSignature
  owner : target.owner = question.1.owner
  again : ∀ site (later : Session), later.memory.Faithful p →
    ((normalize p target site).run later).1.toSignature = target.toSignature

variable {p : Program} {question : Question} {questions others : List Question} {session : Session}

theorem newKeys_cons (known : List (Signature × Option Signature)) (key : Signature × Option Signature)
    (rest : List (Signature × Option Signature)) :
    newKeys known (key :: rest) =
      if key ∈ known then newKeys known rest else key :: newKeys (known ++ [key]) rest := by
  unfold newKeys
  split
  next h => simp [h]
  next h =>
    rw [List.filter_cons_of_pos (by simpa using h), List.eraseDups_cons, List.filter_filter]
    congr 2
    apply List.filter_congr
    intro other _
    by_cases he : other = key <;> simp [he]

theorem firstReports_key (hp : p.Enters) {d : Member} (hd : d ∈ p.methodsOf question.1.owner)
    (hs : d.toSignature = question.1.toSignature) : firstReports p question.key = p.reportsOn d question.2 := by
  unfold firstReports Question.key
  rw [hp.find?_methodsOf hd hs, Option.elim_some]

theorem answers_of_folded (hp : p.Built) (hq : question.Declared p) {target : Member}
    (ht : target.toSignature = p.folded question.1) : Answers p question target := by
  obtain ⟨found, hfound, hs⟩ := hq
  refine ⟨fun d hd hs => ?_, ?_, fun site later hlater => ?_⟩
  · rw [ht]
    exact (hp.foldAccessor_of_declared hd hs none).1
  · exact (congrArg Signature.owner ht).trans (hp.coherent.owner_folded question.1)
  · rw [(finds_normalize hp.coherent target site later hlater).1, hp.folded_folded hfound hs ht, ht]

/-- A question that is known is passed over. Otherwise its report is made, and then it is known. -/
theorem run_normalize_of_declared (hp : p.Built) (hq : question.Declared p) (session : Session) :
    ((normalize p question.1 question.2).run session).2.sink =
        session.sink.emitAll ((newKeys session.memory.folded.keys [question.key]).flatMap (firstReports p)) ∧
      ((normalize p question.1 question.2).run session).2.memory.folded.keys =
        session.memory.folded.keys ++ newKeys session.memory.folded.keys [question.key] := by
  obtain ⟨d, hd, hs⟩ := hq
  rw [run_normalize, newKeys_cons]
  cases hf : session.memory.folded.find? (question.1.toSignature, question.2) with
  | some known =>
    have hknown : question.key ∈ session.memory.folded.keys := Table.mem_keys_of_find? hf
    rw [if_pos hknown]
    simp [newKeys, Sink.emitAll]
  | none =>
    have hnew : question.key ∉ session.memory.folded.keys := Table.find?_eq_none_iff.1 hf
    rw [if_neg hnew]
    refine ⟨?_, ?_⟩
    · simp [newKeys, firstReports_key hp.enters hd hs, (hp.foldAccessor_of_declared hd hs question.2).2]
    · show (session.memory.folded.insert question.key _).keys = _
      rw [Table.keys_insert, if_neg hnew]
      rfl

theorem newKeys_append (known : List (Signature × Option Signature)) (key : Signature × Option Signature)
    (rest : List (Signature × Option Signature)) :
    newKeys known (key :: rest) = newKeys known [key] ++ newKeys (known ++ newKeys known [key]) rest := by
  rw [newKeys_cons, newKeys_cons known key []]
  split <;> simp [newKeys]

theorem run_normalizeAll (hp : p.Built) (hs : session.memory.Faithful p) (hq : ∀ question ∈ questions, question.Declared p) :
    List.Forall₂ (Answers p) questions ((normalizeAll p questions).run session).1 ∧
      ((normalizeAll p questions).run session).1.map (·.toSignature) = questions.map (p.folded ·.1) ∧
      ((normalizeAll p questions).run session).2.memory.Faithful p ∧
      ((normalizeAll p questions).run session).2.sink = session.sink.emitAll
        ((newKeys session.memory.folded.keys (questions.map Question.key)).flatMap (firstReports p)) := by
  induction questions generalizing session with
  | nil => exact ⟨.nil, rfl, hs, rfl⟩
  | cons question rest ih =>
    have hdeclared := hq question List.mem_cons_self
    obtain ⟨hfound, hfaithful⟩ := finds_normalize hp.coherent question.1 question.2 session hs
    obtain ⟨hsink, hkeys⟩ := run_normalize_of_declared hp hdeclared session
    obtain ⟨hanswers, htargets, hafter, hsinks⟩ := ih hfaithful fun other h => hq other (List.mem_cons_of_mem _ h)
    have hrun : (normalizeAll p (question :: rest)).run session =
        (((normalize p question.1 question.2).run session).1 ::
          ((normalizeAll p rest).run ((normalize p question.1 question.2).run session).2).1,
          ((normalizeAll p rest).run ((normalize p question.1 question.2).run session).2).2) := by
      rw [normalizeAll, List.mapM_cons]
      rfl
    rw [hrun]
    refine ⟨.cons (answers_of_folded hp hdeclared hfound) hanswers, ?_, hafter, ?_⟩
    · rw [List.map_cons, List.map_cons, hfound, htargets]
    · rw [hsinks, hsink, hkeys, List.map_cons, newKeys_append _ _ (rest.map Question.key), List.flatMap_append,
        Sink.emitAll, Sink.emitAll, Sink.emitAll, List.foldl_append]

/-- **Folding is complete on built programs**, and whatever a listing loads as is built. For methods that their types declare, asked about in any order and however often: an accessor stands for the first property that has it in the slot of its role, and there is one; any other method stands for itself. What is found is on the type of the method, and stands for itself whenever it is asked about again. Reported is each special method, once for each site, if its type has properties, and nothing else. The roles that the references tell make no difference. -/
theorem folding_complete :
    (∀ source name file p, Listing.load source name file = .ok p → p.Built) ∧
    ∀ p : Program, p.Built → ∀ session : Session, session.memory.Faithful p →
    ∀ questions : List Question, (∀ question ∈ questions, question.Declared p) →
      let done := (normalizeAll p questions).run session
      List.Forall₂ (Answers p) questions done.1 ∧
      done.2.sink = session.sink.emitAll
        ((newKeys session.memory.folded.keys (questions.map Question.key)).flatMap (firstReports p)) ∧
      (∀ question ∈ questions, ∀ d ∈ p.methodsOf question.1.owner, d.toSignature = question.1.toSignature →
        firstReports p question.key = p.reportsOn d question.2) ∧
      done.2.memory.Faithful p ∧
      ∀ others : List Question, others.map Question.key = questions.map Question.key →
        ((normalizeAll p others).run session).1.map (·.toSignature) = done.1.map (·.toSignature) ∧
          ((normalizeAll p others).run session).2.sink = done.2.sink := by
  refine ⟨fun source name file p h => Listing.built_of_load h, ?_⟩
  intro p hp session hs questions hq
  obtain ⟨hanswers, htargets, hfaithful, hsink⟩ := run_normalizeAll hp hs hq
  refine ⟨hanswers, hsink, fun question _ d hd hsame => firstReports_key hp.enters hd hsame, hfaithful, ?_⟩
  intro others hkeys
  have hpairs : List.Forall₂ (fun other question : Question => other.1.toSignature = question.1.toSignature)
      others questions := by
    have hsame := List.forall₂_eq_eq_eq ▸ hkeys
    rw [List.forall₂_map_left_iff, List.forall₂_map_right_iff] at hsame
    exact hsame.imp fun other question h => congrArg Prod.fst h
  have hdeclared : ∀ other ∈ others, other.Declared p := by
    intro other hother
    obtain ⟨question, hquestion, hkey⟩ := List.mem_map.1 (hkeys ▸ List.mem_map_of_mem hother)
    obtain ⟨d, hd, hds⟩ := hq question hquestion
    have hsame : question.1.toSignature = other.1.toSignature := congrArg Prod.fst hkey
    exact ⟨d, congrArg Signature.owner hsame ▸ hd, hds.trans hsame⟩
  obtain ⟨-, htargets', -, hsink'⟩ := run_normalizeAll hp hs hdeclared
  refine ⟨?_, ?_⟩
  · rw [htargets, htargets', ← List.forall₂_eq_eq_eq, List.forall₂_map_left_iff, List.forall₂_map_right_iff]
    exact hpairs.imp fun other question h => hp.coherent.folded_congr h
  · rw [hsink, hsink', hkeys]

end Reference

namespace Zoo

/-- The zoo where `Foo.Make` is the getter of `Foo.Name`, and `Foo` has an operator. -/
def named : Program :=
  (BuildStep.method foo { name := "op_Implicit", isSpecial := true }).after (naming.after program)

def operator : Member := .method foo "op_Implicit" [] .void

/-- `Foo.Make`, taken for a setter, and the operator twice. -/
def questions : List Reference.Question := [(make.method.withRole .setter, none), (operator, none), (operator, none)]

end Zoo

/-- In the zoo, `Foo.Make` stands for `Foo.Name` whatever role a reference tells, and the operator is reported once. -/
theorem Reference.folding_complete_zoo : Zoo.named.Built ∧
    (∀ question ∈ Zoo.questions, question.Declared Zoo.named) ∧
    let done := (Reference.normalizeAll Zoo.named Zoo.questions).run {}
    List.Forall₂ (Reference.Answers Zoo.named) Zoo.questions done.1 ∧
    done.1.map (·.toSignature) =
      [(Member.property Zoo.foo "Name" Zoo.dog).toSignature, Zoo.operator.toSignature, Zoo.operator.toSignature] ∧
    done.2.sink = ({} : Sink).emit (Reference.unknownSpecial (Zoo.operator.withRole .special) none) := by
  have hbuilt : Zoo.named.Built := .step (.step Zoo.built _) _
  have hdeclared : ∀ question ∈ Zoo.questions, question.Declared Zoo.named := by
    unfold Reference.Question.Declared
    decide
  obtain ⟨hanswers, hsink, -⟩ :=
    Reference.folding_complete.2 Zoo.named hbuilt {} (Memory.faithful_empty _) Zoo.questions hdeclared
  refine ⟨hbuilt, hdeclared, hanswers, by decide, hsink.trans ?_⟩
  rfl

end StubClosure
