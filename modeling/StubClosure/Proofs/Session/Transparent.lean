import StubClosure.Proofs.Listing.Rendered
import StubClosure.Proofs.Session.Recall

/-!
# Sessions are transparent

One cannot tell from the answers of a session what else it has been asked. Questions of all kinds, in any order and however often, are answered as each would be in a session of its own, and that is as the program is read without a memory (`Query.askAll_transparent`). One can tell from its reports only that nothing is reported on twice. None of this needs a program that the builder made: a reader of another kind may keep properties apart from roles, so that no property lists an accessor.
-/

namespace StubClosure

/-- A question for a session: what a member at a site stands for, what a body refers to, which members of one type the bodies of another refer to, or what the virtual call at an index of a body is a call on. -/
inductive Query where
  | member (m : Member) (site : Option Signature)
  | body (b : Body)
  | into (stub scanned : TypeId)
  | receiver (b : Body) (index : Int)

inductive Answer where
  | member (m : Member)
  | references (list : List Reference)
  | members (set : MemberSet)
  | receiver (outcome : Except ReceiverError (Option Refinement))

namespace Answer

/-- The answer as a view of members shows it. -/
def viewed (view : Member → Member) : Answer → Answer
  | member m => member (view m)
  | references list => references (list.map (Reference.viewed view))
  | members set => members (set.mapValues view)
  | receiver outcome => receiver outcome

theorem viewed_id (answer : Answer) : answer.viewed id = answer := by
  cases answer with
  | member m => rfl
  | references list => exact congrArg references (List.map_id list)
  | members set => exact congrArg members (congrArg Table.mk (List.map_id set.entries))
  | receiver outcome => rfl

end Answer

namespace Query

open Scan

/-- The question is put to a session. -/
def ask (p : Program) : Query → Scan Answer
  | member m site => do return .member (← Reference.normalize p m site)
  | body b => do return .references (← Reference.ofBody p b)
  | into stub scanned => do return .members (← Reference.into p stub scanned)
  | receiver b index => do return .receiver (← (Receiver.resolve p b index).run)

/-- One question after the other is put to the session. -/
def askAll (p : Program) : List Query → Scan (List Answer)
  | [] => return []
  | q :: rest => do
    let answer ← q.ask p
    let others ← askAll p rest
    return answer :: others

/-- The answer of a new session. -/
def alone (p : Program) (q : Query) : Answer := ((q.ask p).run {}).1

/-- The program is read for an answer, without a memory. -/
def read (p : Program) : Query → Reading Answer
  | member m site => do return .member (← Reference.readMember p m site)
  | body b => do return .references (← Reference.readBody p b)
  | into stub scanned => do return .members (← Reference.readInto p stub scanned)
  | receiver b index => do return .receiver (← Receiver.read p b index)

/-- The program is read for one answer after the other. -/
def readAll (p : Program) (queries : List Query) : Reading (List Answer) where
  found := queries.map fun q => (q.read p).found
  lookups := queries.flatMap fun q => (q.read p).lookups

theorem readAll_cons (p : Program) (q : Query) (rest : List Query) : readAll p (q :: rest) = (do
    let answer ← q.read p
    let others ← readAll p rest
    return answer :: others) := by
  show Reading.mk _ ((q.read p).lookups ++ (readAll p rest).lookups) =
    Reading.mk _ ((q.read p).lookups ++ ((readAll p rest).lookups ++ []))
  rw [List.append_nil]
  rfl

/-- A body that is asked about is one of the program. -/
def From (p : Program) : Query → Prop
  | member _ _ | into _ _ => True
  | body b | receiver b _ => ∃ m, p.body? m = some b

section
variable {p : Program} {asked : Set Member} {view : Member → Member} (hv : p.SeenAlike asked view) (hp : p.OwnsBodies)
include hv hp

theorem follows_ask {q : Query} (hq : q.From p) (hm : ∀ m site, q = .member m site → m ∈ asked) :
    Follows p asked view (q.ask p) (q.read p) (Answer.viewed view) := by
  cases q with
  | member m site =>
    exact (Reference.follows_normalize hv (hm m site rfl) site).bind fun _ _ h => follows_pure (congrArg Answer.member h)
  | body b =>
    obtain ⟨m, hb⟩ := hq
    exact (Reference.follows_ofBody hv (hp.has hb)).bind fun _ _ h => follows_pure (congrArg Answer.references h)
  | into stub scanned =>
    exact (Reference.follows_into hv hp stub scanned).bind fun _ _ h => follows_pure (congrArg Answer.members h)
  | receiver b index =>
    obtain ⟨m, hb⟩ := hq
    exact (Receiver.follows_resolve (hp.has hb) index).bind fun _ _ h => follows_pure (congrArg Answer.receiver h)

theorem follows_askAll {queries : List Query} (hq : ∀ q ∈ queries, q.From p)
    (hm : ∀ m site, .member m site ∈ queries → m ∈ asked) :
    Follows p asked view (askAll p queries) (readAll p queries) (List.map (Answer.viewed view)) := by
  induction queries with
  | nil => exact follows_pure rfl
  | cons q rest ih =>
    rw [List.forall_mem_cons] at hq
    rw [readAll_cons]
    have hrest := ih hq.2 fun m site h => hm m site (List.mem_cons_of_mem q h)
    refine (follows_ask hv hp hq.1 fun m site h => hm m site (h ▸ List.mem_cons_self)).bind fun answer read ha => ?_
    exact hrest.bind fun others readOthers ho => follows_pure (by rw [List.map_cons, List.map_cons, ha, ho])

/-- New sessions give the answers that are read, and so does one session for all questions. -/
theorem answers_askAll {queries : List Query} (hq : ∀ q ∈ queries, q.From p)
    (hm : ∀ m site, .member m site ∈ queries → m ∈ asked) (sink : Sink) :
    ((askAll p queries).run { sink }).1.map (Answer.viewed view) = queries.map (fun q => (q.alone p).viewed view) ∧
      ∀ q ∈ queries, (q.alone p).viewed view = (q.read p).found.viewed view := by
  have hrecalls := Memory.recalls_empty p asked view
  have hread : ∀ q ∈ queries, (q.alone p).viewed view = (q.read p).found.viewed view := fun q h =>
    (follows_ask hv hp (hq q h) (fun m site he => hm m site (he ▸ h)) {} [] {} (Session.told_nil p {}) hrecalls).1
  obtain ⟨hanswers, -, -⟩ := follows_askAll hv hp hq hm sink [] { sink } (Session.told_nil p sink) hrecalls
  refine ⟨?_, hread⟩
  rw [hanswers, List.map_congr_left hread, readAll, List.map_map]
  rfl

theorem sink_askAll {queries : List Query} (hq : ∀ q ∈ queries, q.From p)
    (hm : ∀ m site, .member m site ∈ queries → m ∈ asked) (sink : Sink) :
    ((askAll p queries).run { sink }).2.sink =
      sink.emitAll (Lookup.reported p (queries.flatMap fun q => (q.read p).lookups)) := by
  obtain ⟨-, htold, -⟩ := follows_askAll hv hp hq hm sink [] { sink } (Session.told_nil p sink)
    (Memory.recalls_empty p asked view)
  exact htold.sink

end

/-- **Sessions are transparent.** A program is given that does not change, and keeps bodies under the methods that they are of. Of its bodies and types questions are asked, any of them in any order, repeated or not, and whether they have an answer or fail. Operands and members that are asked about agree in role and flag where they have one signature, as operands always do in what a listing loads as. Then the answers are those that new sessions would give, each asked one of the questions; these are what is read without a memory; and what is reported is what there is to report on the lookups that one makes who reads the program anew for each question, except that of lookups with one key only the first counts. If the program was built, then the reports are these however members differ in role and flag, and no more than role and flag of a member that is found may be those of another of its signature. -/
theorem askAll_transparent :
    (∀ source name file p, Listing.load source name file = .ok p →
      p.Built ∧ Set.InjOn Member.toSignature p.operands) ∧
    (∀ p : Program, p.OwnsBodies → ∀ (sink : Sink) (queries : List Query), (∀ q ∈ queries, q.From p) →
      Set.InjOn Member.toSignature (p.operands ∪ {m | ∃ site, .member m site ∈ queries}) →
      let done := (askAll p queries).run { sink }
      done.2.sink = sink.emitAll (Lookup.reported p (queries.flatMap fun q => (q.read p).lookups)) ∧
      done.1 = queries.map (alone p) ∧ ∀ q ∈ queries, q.alone p = (q.read p).found) ∧
    ∀ p : Program, p.Built → p.OwnsBodies ∧
      ∀ (sink : Sink) (queries : List Query), (∀ q ∈ queries, q.From p) →
        let done := (askAll p queries).run { sink }
        done.2.sink = sink.emitAll (Lookup.reported p (queries.flatMap fun q => (q.read p).lookups)) ∧
        done.1.map (Answer.viewed Member.plain) = queries.map (fun q => (q.alone p).viewed Member.plain) ∧
        ∀ q ∈ queries, (q.alone p).viewed Member.plain = (q.read p).found.viewed Member.plain := by
  refine ⟨fun source name file p h => ⟨Listing.built_of_load h, Listing.injOn_operands_of_load h⟩, ?_, ?_⟩
  · intro p hp sink queries hq huniform
    have hexact := p.seenAlike_id Set.subset_union_left huniform
    have hasked : ∀ m site, .member m site ∈ queries → m ∈ p.operands ∪ {m | ∃ site, .member m site ∈ queries} :=
      fun m site h => .inr ⟨site, h⟩
    obtain ⟨hanswers, hread⟩ := answers_askAll hexact hp hq hasked sink
    simp only [Answer.viewed_id, show Answer.viewed id = id from funext Answer.viewed_id, List.map_id] at hanswers hread
    exact ⟨sink_askAll hexact hp hq hasked sink, hanswers, hread⟩
  · intro p hbuilt
    have hp : p.OwnsBodies := hbuilt.coherent.ownsBodies
    refine ⟨hp, fun sink queries hq => ?_⟩
    have hplain := hbuilt.coherent.seenAlike_plain
    have hasked : ∀ m site, .member m site ∈ queries → m ∈ Set.univ := fun m _ _ => Set.mem_univ m
    exact ⟨sink_askAll hplain hp hq hasked sink, answers_askAll hplain hp hq hasked sink⟩

end Query

/-! ## A session in the zoo -/

namespace Zoo

open Listing

/-- `Foo` has a property and an operator, and a method that lets a `Dog` speak and calls both. -/
def listing : List TypeDecl :=
  [{ head := { position := {}, name := "Foo" }
     members :=
      [.property { position := {}, type := "Dog", name := "Pet", accessors := [.getter "Own"] },
       .method { position := {}, returns := "Dog", name := "Own" },
       .method { position := {}, modifiers := ["specialname"], returns := "void", name := "op_Implicit" },
       .method
        { position := {}, returns := "void", name := "Call"
          body := some
            { locals := some ["Dog"]
              instructions :=
                [{ position := {}, label := "IL_0:", mnemonic := "ldloc.0" },
                 { position := {}, label := "IL_1:", mnemonic := "ldarg.0" },
                 { position := {}, label := "IL_2:", mnemonic := "callvirt"
                   operand := some (.member true "void" "Animal" "Speak" (some ["Foo"])) },
                 { position := {}, label := "IL_7:", mnemonic := "call"
                   operand := some (.member false "void" "Foo" "op_Implicit" (some [])) },
                 { position := {}, label := "IL_C:", mnemonic := "call"
                   operand := some (.member false "Dog" "Foo" "Own" (some [])) }] } }] }]

def implicit : Member := { Member.method foo "op_Implicit" [] .void with role := .special }

/-- The body of `Foo.Call` as it is loaded: of the members that it calls, those of `Foo` are as they are declared. -/
def calling : Body where
  method := .method foo "Call" [] .void
  instructions :=
    [{ offset := 0, category := .loadLocal, mnemonic := "ldloc.0", operand := some (.number 0) },
     { offset := 1, category := .loadArg, mnemonic := "ldarg.0", operand := some (.number 0) }, callSpeak,
     { offset := 7, category := .call, mnemonic := "call", operand := some (.member implicit), pushes := false },
     { offset := 12, category := .call, mnemonic := "call"
       operand := some (.member { Member.method foo "Own" [] dog with role := .getter }) }]
  locals := [dog]

/-- The call of `Animal.Speak` is looked at twice, and a place where there is none. The operator is met with in the body and asked for there once more, and asked for apart. -/
def queries : List Query :=
  [.body calling, .receiver calling 2, .member implicit (some calling.method.toSignature), .into foo foo,
   .receiver calling 2, .receiver calling 9, .member implicit none, .body calling]

theorem calls_listing {file : Option String} {h : TypeHead} {d : PropertyDecl} {m m' m'' : MethodDecl} {t : TypeId}
    (ht : declaredId none h.name = .ok t) :
    calls file [⟨h, [.property d, .method m, .method m', .method m'']⟩] =
      [headCall file none h, methodCall file t m, methodCall file t m', methodCall file t m'', propertyCall file t d] := by
  simp [calls, typeCalls, innerCalls, fillCalls, memberCalls, propertyCalls, ht]

/-- The reports of a session of the questions, by their codes. -/
def reportCodes (p : Program) : List (Option String) :=
  ((Query.askAll p queries).run {}).2.sink.diagnostics.map (·.code)

/-- The program as a reader of another kind may have it: the accessor is known as one, and the property does not list it. -/
def unlisted (p : Program) : Program := p.setSlots foo 0 none none

theorem exists_load_listing : ∃ p, load (text listing) "zoo" none = .ok p ∧ p.body? calling.method = some calling ∧
    reportCodes p = [some "unknown-special-member", some "dispatch-refined", some "unknown-special-member"] ∧
      reportCodes (unlisted p) = [some "unknown-special-member", some "unknown-special-member",
        some "dispatch-refined", some "unknown-special-member"] := by
  have hfoo : declaredId none "Foo" = .ok foo := by decide +kernel
  have hcalls : calls none (placeTypes {} listing) = _ := calls_listing hfoo
  exact exists_load_text (by decide +kernel) hcalls (by decide +kernel)

end Zoo

/-- In the zoo each report is made once: on the operator in the body of `Foo.Call`, on the `Dog` that speaks, and on the operator asked for apart. If `Foo.Pet` does not list its accessor, then there is one more, on the accessor in that body. -/
theorem Query.askAll_transparent_zoo : ∃ p, Listing.load (Listing.text Zoo.listing) "zoo" none = .ok p ∧ p.Built ∧
    (∀ q ∈ Zoo.queries, q.From p) ∧
    Set.InjOn Member.toSignature (p.operands ∪ {m | ∃ site, .member m site ∈ Zoo.queries}) ∧
    (let done := (Query.askAll p Zoo.queries).run {}
     done.1 = Zoo.queries.map (Query.alone p) ∧
     done.2.sink = Sink.emitAll {} (Lookup.reported p (Zoo.queries.flatMap fun q => (q.read p).lookups))) ∧
    Zoo.reportCodes p = [some "unknown-special-member", some "dispatch-refined", some "unknown-special-member"] ∧
    (Zoo.unlisted p).OwnsBodies ∧
    ((Query.askAll (Zoo.unlisted p) Zoo.queries).run {}).1 = Zoo.queries.map (Query.alone (Zoo.unlisted p)) ∧
    Zoo.reportCodes (Zoo.unlisted p) = [some "unknown-special-member", some "unknown-special-member",
      some "dispatch-refined", some "unknown-special-member"] := by
  obtain ⟨p, hload, hbody, hcodes, hmore⟩ := Zoo.exists_load_listing
  obtain ⟨hloaded, hexact, hplain⟩ := Query.askAll_transparent
  obtain ⟨hbuilt, hoperands⟩ := hloaded _ _ _ _ hload
  obtain ⟨howns, -⟩ := hplain p hbuilt
  have hcalling : ∃ m, p.body? m = some Zoo.calling := ⟨_, hbody⟩
  have hfrom : ∀ q ∈ Zoo.queries, q.From p := by
    simp only [Zoo.queries, List.forall_mem_cons]
    exact ⟨hcalling, hcalling, trivial, trivial, hcalling, hcalling, trivial, hcalling, nofun⟩
  have hcalled : Zoo.implicit ∈ p.operands := ⟨_, Zoo.calling, hbody, Zoo.calling.instructions[3], by decide, rfl⟩
  have hasked : {m | ∃ site, .member m site ∈ Zoo.queries} ⊆ p.operands := by
    rintro m ⟨site, h⟩
    simp only [Zoo.queries, List.mem_cons, reduceCtorEq, Query.member.injEq, List.not_mem_nil, false_or, or_false] at h
    rcases h with ⟨rfl, -⟩ | ⟨rfl, -⟩ <;> exact hcalled
  have huniform : Set.InjOn Member.toSignature (p.operands ∪ {m | ∃ site, .member m site ∈ Zoo.queries}) := by
    rwa [Set.union_eq_left.2 hasked]
  obtain ⟨hsink, hanswers, -⟩ := hexact p howns {} Zoo.queries hfrom huniform
  -- both programs have the same bodies, and what is asked for of a program is about bodies only
  obtain ⟨-, hothers, -⟩ := hexact (Zoo.unlisted p) howns {} Zoo.queries hfrom huniform
  exact ⟨p, hload, hbuilt, hfrom, huniform, ⟨hanswers, hsink⟩, hcodes, howns, hothers, hmore⟩

end StubClosure
