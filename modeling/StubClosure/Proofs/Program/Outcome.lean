import StubClosure.Proofs.Program.Coherent

/-!
# What steps of building come to

Adding a type or a method goes through checks that change nothing. If they are passed, then a first change is made: a nested type is listed with the type around it, a method is declared. The types that are left to be read come after it. So there are few ways for such a step to go (`run_addType_cases`, `run_addMethod_cases`), and whatever is to be shown of it is shown for each of them.
-/

namespace StubClosure

/-- The argument is a name that is no type name. -/
def TypeArg.IsBad (arg : TypeArg) : Prop := ∃ e, arg.resolve = .error e

namespace TypeArg

theorem isBad_or_exists_resolve (arg : TypeArg) : arg.IsBad ∨ ∃ t, arg.resolve = .ok t := by
  unfold IsBad
  cases arg.resolve with
  | error e => exact .inl ⟨e, rfl⟩
  | ok t => exact .inr ⟨t, rfl⟩

theorem mapM_resolve_cases (args : List TypeArg) :
    ((∀ arg ∈ args, ¬ arg.IsBad) ∧ ∃ ts, args.mapM resolve = .ok ts) ∨
      (∃ arg ∈ args, arg.IsBad) ∧ ∃ e, args.mapM resolve = .error e := by
  induction args with
  | nil => exact .inl ⟨by simp, [], rfl⟩
  | cons arg rest ih =>
    rw [List.mapM_cons]
    rcases arg.isBad_or_exists_resolve with ⟨e, he⟩ | ⟨t, ht⟩
    · refine .inr ⟨⟨arg, List.mem_cons_self, e, he⟩, e, ?_⟩
      rw [he]
      rfl
    · rw [ht]
      rcases ih with ⟨hgood, ts, hts⟩ | ⟨⟨bad, hmem, hbad⟩, e, he⟩
      · refine .inl ⟨?_, t :: ts, by rw [hts]; rfl⟩
        intro other ho
        rcases List.mem_cons.1 ho with rfl | ho
        · rintro ⟨e, he⟩
          cases ht.symm.trans he
        · exact hgood other ho
      · exact .inr ⟨⟨bad, List.mem_cons_of_mem _ hmem, hbad⟩, e, by rw [he]; rfl⟩

end TypeArg

namespace Program

variable {p : Program} {outer t : TypeId}

/-- The type is listed as nested in another. -/
def listNested (p : Program) (outer t : TypeId) : Program :=
  p.modifyType outer fun d => { d with nested := d.nested ++ [t] }

/-- The type is defined, whether it is listed or not. -/
def define (p : Program) (t : TypeId) (d : TypeDef) : Program :=
  { p with types := p.types.insert t d, names := p.names.insert t.fullName t }

/-- The method is declared in a type, without a body. -/
def declare (p : Program) (owner : TypeId) (m : Member) : Program :=
  (p.modifyType owner fun d => { d with methods := d.methods ++ [m] }).enter m

theorem defines_listNested (outer t other : TypeId) : (p.listNested outer t).defines other = p.defines other :=
  defines_modifyType outer _ other

theorem nestedOf_listNested (h : p.defines outer = true) :
    (p.listNested outer t).nestedOf outer = p.nestedOf outer ++ [t] := by
  obtain ⟨d, hd⟩ := exists_type?_of_defines h
  rw [nestedOf_eq hd]
  refine nestedOf_eq (d := { d with nested := d.nested ++ [t] }) ?_
  rw [listNested, type?_modifyType, if_pos rfl, hd]
  rfl

theorem listNested_ne (h : p.defines outer = true) : p.listNested outer t ≠ p := by
  intro heq
  have hlonger := congrArg List.length (nestedOf_listNested (t := t) h)
  rw [heq, List.length_append, List.length_singleton] at hlonger
  omega

theorem type?_define (d : TypeDef) (other : TypeId) :
    (p.define t d).type? other = if other = t then some d else p.type? other :=
  Table.find?_insert p.types t d other

theorem defines_define_iff (d : TypeDef) (other : TypeId) :
    (p.define t d).defines other = true ↔ other = t ∨ p.defines other = true := by
  unfold defines
  rw [Table.contains_iff, Table.contains_iff]
  exact Table.mem_keys_insert

theorem define_listNested (h : t ≠ outer) (d : TypeDef) :
    (p.listNested outer t).define t d = (p.define t d).listNested outer t :=
  congrArg (fun types => { p with types, names := p.names.insert t.fullName t }) (Table.insert_modify p.types h _ d)

theorem contains_declare (owner : TypeId) (m : Member) : (p.declare owner m).members.contains m.toSignature = true :=
  Table.contains_iff.2 (Table.mem_keys_insert.2 (.inl rfl))

theorem declare_ne {owner : TypeId} {m : Member} (h : p.members.contains m.toSignature = false) :
    p.declare owner m ≠ p := by
  intro heq
  have hcontains := contains_declare (p := p) owner m
  rw [heq, h] at hcontains
  cases hcontains

end Program

namespace Build

open Step

variable {p : Program} {arg : TypeArg} {base : Option TypeArg} {interfaces : List TypeArg} {isPublic : Bool}
  {owner t outer : TypeId} {new : NewMethod} {m : Member}

/-! ## Reading types -/

theorem reads_type (arg : TypeArg) : Reads (type arg) := by
  unfold type
  split
  · exact reads_pure _
  · exact reads_throw _

theorem reads_require (t : TypeId) : Reads (require t) := by
  unfold require
  refine reads_get.bind fun p => ?_
  split
  · exact reads_pure _
  · exact reads_throw _

theorem run_type_of_ok (h : arg.resolve = .ok t) (p : Program) : (type arg).run.run p = (.ok t, p) := by
  unfold type
  rw [h]
  rfl

theorem run_type_of_error {e : TypeNameError} (h : arg.resolve = .error e) (p : Program) :
    (type arg).run.run p = (.error (.typeName e), p) := by
  unfold type
  rw [h]
  rfl

theorem resolve_of_run_type {q : Program} (h : (type arg).run.run p = (.ok t, q)) : arg.resolve = .ok t := by
  rcases arg.isBad_or_exists_resolve with ⟨e, he⟩ | ⟨other, ho⟩
  · rw [run_type_of_error he] at h
    cases h
  · rw [run_type_of_ok ho] at h
    cases h
    exact ho

theorem run_mapM_type (args : List TypeArg) (p : Program) :
    (args.mapM type).run.run p = ((args.mapM TypeArg.resolve).mapError .typeName, p) := by
  induction args with
  | nil => rfl
  | cons arg rest ih =>
    rw [List.mapM_cons, List.mapM_cons]
    cases hr : arg.resolve with
    | error e =>
      rw [run_bind_of_error (run_type_of_error hr p)]
      rfl
    | ok t =>
      rw [run_bind_of_ok (run_type_of_ok hr p), run_bind, ih]
      cases rest.mapM TypeArg.resolve <;> rfl

theorem run_mapM_type_of_ok {args : List TypeArg} {ts : List TypeId} (h : args.mapM TypeArg.resolve = .ok ts)
    (p : Program) : (args.mapM type).run.run p = (.ok ts, p) := by
  rw [run_mapM_type, h]
  rfl

theorem run_mapM_type_of_error {args : List TypeArg} {e : TypeNameError} (h : args.mapM TypeArg.resolve = .error e)
    (p : Program) : (args.mapM type).run.run p = (.error (.typeName e), p) := by
  rw [run_mapM_type, h]
  rfl

theorem resolve_of_run_mapM_type {args : List TypeArg} {ts : List TypeId} {q : Program}
    (h : (args.mapM type).run.run p = (.ok ts, q)) : args.mapM TypeArg.resolve = .ok ts := by
  rw [run_mapM_type] at h
  cases hr : args.mapM TypeArg.resolve with
  | error e =>
    rw [hr] at h
    cases h
  | ok others =>
    rw [hr] at h
    cases h
    rfl

theorem run_mapM_type_cases (args : List TypeArg) :
    ((∀ arg ∈ args, ¬ arg.IsBad) ∧ ∃ ts, ∀ p, (args.mapM type).run.run p = (.ok ts, p)) ∨
      (∃ arg ∈ args, arg.IsBad) ∧ ∃ e, ∀ p, (args.mapM type).run.run p = (.error e, p) := by
  rcases TypeArg.mapM_resolve_cases args with ⟨hgood, ts, hts⟩ | ⟨hbad, e, he⟩
  · exact .inl ⟨hgood, ts, run_mapM_type_of_ok hts⟩
  · exact .inr ⟨hbad, _, run_mapM_type_of_error he⟩

theorem run_optionMapM_type_cases (base : Option TypeArg) :
    ((∀ arg ∈ base, ¬ arg.IsBad) ∧ ∃ found, ∀ p, (base.mapM type).run.run p = (.ok found, p)) ∨
      (∃ arg ∈ base, arg.IsBad) ∧ ∃ e, ∀ p, (base.mapM type).run.run p = (.error e, p) := by
  cases base with
  | none => exact .inl ⟨by simp, none, fun p => rfl⟩
  | some arg =>
    have hsome : (some arg).mapM type = type arg >>= fun t => pure (some t) := rfl
    rw [hsome]
    rcases arg.isBad_or_exists_resolve with ⟨e, he⟩ | ⟨t, ht⟩
    · exact .inr ⟨⟨arg, rfl, e, he⟩, _, fun p => run_bind_of_error (run_type_of_error he p)⟩
    · refine .inl ⟨?_, some t, fun p => run_bind_of_ok (run_type_of_ok ht p)⟩
      rintro _ ⟨⟩ ⟨e, he⟩
      cases ht.symm.trans he

/-! ## Types -/

/-- What is left of adding a type once the type around it lists it. -/
def defineType (t : TypeId) (base : Option TypeArg) (interfaces : List TypeArg) (isPublic : Bool) : Build TypeId := do
  let base ← base.mapM type
  let interfaces ← interfaces.mapM type
  modify fun p =>
    { p with
      types := p.types.insert t { id := t, base, interfaces, isPublic }
      names := p.names.insert t.fullName t }
  return t

/-- The base or one of the interfaces is bad. -/
def BadSupertype (base : Option TypeArg) (interfaces : List TypeArg) : Prop :=
  (∃ other ∈ base, other.IsBad) ∨ ∃ other ∈ interfaces, other.IsBad

theorem run_defineType_cases (t : TypeId) (base : Option TypeArg) (interfaces : List TypeArg) (isPublic : Bool) :
    (BadSupertype base interfaces ∧ ∃ e, ∀ p, (defineType t base interfaces isPublic).run.run p = (.error e, p)) ∨
      (¬ BadSupertype base interfaces ∧ ∃ found others, ∀ p, (defineType t base interfaces isPublic).run.run p =
        (.ok t, p.define t { id := t, base := found, interfaces := others, isPublic })) := by
  unfold defineType
  rcases run_optionMapM_type_cases base with ⟨hbases, found, hbase⟩ | ⟨hbad, e, hbase⟩
  · rcases run_mapM_type_cases interfaces with ⟨hgood, others, hothers⟩ | ⟨hbad, e, hothers⟩
    · refine .inr ⟨?_, found, others, fun p => ?_⟩
      · rintro (⟨other, hmem, hbad⟩ | ⟨other, hmem, hbad⟩)
        · exact hbases other hmem hbad
        · exact hgood other hmem hbad
      · rw [run_bind_of_ok (hbase p), run_bind_of_ok (hothers p)]
        rfl
    · refine .inl ⟨.inr hbad, e, fun p => ?_⟩
      rw [run_bind_of_ok (hbase p), run_bind_of_error (hothers p)]
  · exact .inl ⟨.inl hbad, e, fun p => run_bind_of_error (hbase p)⟩

theorem run_addType (h : arg.resolve = .ok t) (p : Program) (base : Option TypeArg) (interfaces : List TypeArg)
    (isPublic : Bool) : (addType arg base interfaces isPublic).run.run p =
      if p.defines t = true then (.error (.typeExists t), p)
      else match t.outer? with
        | none => (defineType t base interfaces isPublic).run.run p
        | some outer =>
          if p.defines outer = true then (defineType t base interfaces isPublic).run.run (p.listNested outer t)
          else (.error (.outerMissing t), p) := by
  unfold addType
  rw [run_bind_of_ok (run_type_of_ok h p), run_get_bind]
  by_cases hd : p.defines t = true
  · rw [if_pos hd, if_pos hd]
    rfl
  · rw [if_neg hd, if_neg hd]
    cases t.outer? with
    | none => rfl
    | some outer =>
      dsimp only
      rw [run_get_bind]
      by_cases hdo : p.defines outer = true
      · rw [if_pos hdo, if_pos hdo]
        rfl
      · rw [if_neg hdo, if_neg hdo]
        rfl

/-- The type is a new one in a type that is there. -/
structure AddsInner (p : Program) (arg : TypeArg) (t outer : TypeId) : Prop where
  resolves : arg.resolve = .ok t
  isNew : p.defines t = false
  isInner : t.outer? = some outer
  around : p.defines outer = true

theorem AddsInner.ne (h : AddsInner p arg t outer) : t ≠ outer := by
  rintro rfl
  cases h.isNew.symm.trans h.around

/-- The type around a new one lists it before anything is known of its base and interfaces. -/
theorem AddsInner.run (h : AddsInner p arg t outer) (base : Option TypeArg) (interfaces : List TypeArg)
    (isPublic : Bool) : (addType arg base interfaces isPublic).run.run p =
      (defineType t base interfaces isPublic).run.run (p.listNested outer t) := by
  rw [run_addType h.resolves, if_neg (by simp [h.isNew]), h.isInner]
  exact if_pos h.around

theorem AddsInner.listNested (h : AddsInner p arg t outer) : AddsInner (p.listNested outer t) arg t outer where
  resolves := h.resolves
  isNew := (Program.defines_listNested outer t t).trans h.isNew
  isInner := h.isInner
  around := (Program.defines_listNested outer t outer).trans h.around

/-- **Adding a type** fails at first, or goes on to define the type, which the type around it lists by then. -/
theorem run_addType_cases (p : Program) (arg : TypeArg) (base : Option TypeArg) (interfaces : List TypeArg)
    (isPublic : Bool) :
    (∃ e, (addType arg base interfaces isPublic).run.run p = (.error e, p)) ∨
      (∃ t outer, AddsInner p arg t outer ∧ (addType arg base interfaces isPublic).run.run p =
        (defineType t base interfaces isPublic).run.run (p.listNested outer t)) ∨
      ∃ t, arg.resolve = .ok t ∧ p.defines t = false ∧ t.outer? = none ∧
        (addType arg base interfaces isPublic).run.run p = (defineType t base interfaces isPublic).run.run p := by
  rcases arg.isBad_or_exists_resolve with ⟨e, he⟩ | ⟨t, ht⟩
  · exact .inl ⟨_, run_bind_of_error (run_type_of_error he p)⟩
  · rw [run_addType ht]
    by_cases hd : p.defines t = true
    · exact .inl ⟨.typeExists t, if_pos hd⟩
    · have hnew : p.defines t = false := Bool.eq_false_iff.2 hd
      rw [if_neg hd]
      cases ho : t.outer? with
      | none => exact .inr (.inr ⟨t, ht, hnew, ho, rfl⟩)
      | some outer =>
        by_cases hdo : p.defines outer = true
        · exact .inr (.inl ⟨t, outer, ⟨ht, hnew, ho, hdo⟩, if_pos hdo⟩)
        · exact .inl ⟨.outerMissing t, if_neg hdo⟩

/-! ## Methods -/

namespace NewMethod

/-- The method that is to be added to a type. -/
def Makes (new : NewMethod) (owner : TypeId) (m : Member) : Prop :=
  ∃ params returns, new.params.mapM TypeArg.resolve = .ok params ∧ new.returns.resolve = .ok returns ∧
    m = { Member.method owner new.name params returns with
      role := Program.newRole new.name new.isSpecial, isStatic := new.isStatic }

/-- There is a body, and the type of one of its locals is bad. -/
def HasBadLocal (new : NewMethod) : Prop := new.body ≠ none ∧ ∃ arg ∈ new.locals, arg.IsBad

theorem Makes.owner_eq {new : NewMethod} {owner : TypeId} {m : Member} (h : new.Makes owner m) : m.owner = owner := by
  obtain ⟨params, returns, -, -, rfl⟩ := h
  rfl

end NewMethod

/-- What is left of adding a method once it is declared. -/
def giveBody (m : Member) (new : NewMethod) : Build Member := do
  if let some instructions := new.body then
    let locals ← new.locals.mapM type
    modify fun p => p.setBody { method := m, instructions, locals }
  return m

theorem run_giveBody_cases (m : Member) (new : NewMethod) :
    (new.HasBadLocal ∧ ∃ e, ∀ p, (giveBody m new).run.run p = (.error e, p)) ∨
      (¬ new.HasBadLocal ∧ ∀ p, ∃ q, (giveBody m new).run.run p = (.ok m, q) ∧ (q = p ∨
        ∃ instructions locals, new.body = some instructions ∧ q = p.setBody { method := m, instructions, locals })) := by
  unfold giveBody NewMethod.HasBadLocal
  cases new.body with
  | none => exact .inr ⟨by simp, fun p => ⟨p, rfl, .inl rfl⟩⟩
  | some instructions =>
    rcases run_mapM_type_cases new.locals with ⟨hgood, locals, hlocals⟩ | ⟨hbad, e, hlocals⟩
    · refine .inr ⟨fun ⟨_, arg, hmem, hbad⟩ => hgood arg hmem hbad, fun p => ?_⟩
      exact ⟨_, run_bind_of_ok (hlocals p), .inr ⟨instructions, locals, rfl, rfl⟩⟩
    · exact .inl ⟨⟨by simp, hbad⟩, e, fun p => run_bind_of_error (hlocals p)⟩

/-- A method is to be added to a type that is there. -/
structure AddsMethod (p : Program) (owner : TypeId) (new : NewMethod) (m : Member) : Prop where
  owned : p.defines owner = true
  makes : new.Makes owner m

theorem defines_of_run_require {d : TypeDef} {q : Program} (h : (require owner).run.run p = (.ok d, q)) :
    p.defines owner = true := by
  unfold require at h
  rw [run_get_bind] at h
  cases hd : p.type? owner with
  | some d => exact Program.defines_of_type? hd
  | none =>
    rw [hd] at h
    cases h

/-- The method is declared before anything is known of the types of its locals. -/
theorem AddsMethod.run (h : AddsMethod p owner new m) : (addMethod owner new).run.run p =
    if p.members.contains m.toSignature then (.error (.methodExists m.toSignature), p)
    else (giveBody m new).run.run (p.declare owner m) := by
  obtain ⟨params, returns, hparams, hreturns, rfl⟩ := h.makes
  obtain ⟨d, hd⟩ := Program.exists_type?_of_defines h.owned
  have howner : (require owner).run.run p = (.ok d, p) := by
    unfold require
    rw [run_get_bind, hd]
    rfl
  unfold addMethod
  rw [run_bind_of_ok howner, run_bind_of_ok (run_mapM_type_of_ok hparams p), run_bind_of_ok (run_type_of_ok hreturns p),
    run_get_bind]
  dsimp only
  split
  · rfl
  · rfl

/-- **Adding a method** fails at first, or declares the method and goes on to give it its body. -/
theorem run_addMethod_cases (p : Program) (owner : TypeId) (new : NewMethod) :
    (∃ e, (addMethod owner new).run.run p = (.error e, p)) ∨
      ∃ m, AddsMethod p owner new m ∧ p.members.contains m.toSignature = false ∧
        (addMethod owner new).run.run p = (giveBody m new).run.run (p.declare owner m) := by
  by_cases hadds : ∃ m, AddsMethod p owner new m
  · obtain ⟨m, hadds⟩ := hadds
    by_cases hold : p.members.contains m.toSignature = true
    · refine .inl ⟨_, hadds.run.trans (if_pos hold)⟩
    · exact .inr ⟨m, hadds, Bool.eq_false_iff.2 hold, hadds.run.trans (if_neg hold)⟩
  · -- without a method one of the checks before it fails
    have hfails : Ends (addMethod owner new) p fun outcome after => ∃ e, (outcome, after) = (.error e, p) := by
      unfold addMethod
      refine (reads_require owner).ends_bind (fun e => ⟨e, rfl⟩) fun d hd => ?_
      refine (Reads.mapM reads_type new.params).ends_bind (fun e => ⟨e, rfl⟩) fun params hparams => ?_
      refine (reads_type new.returns).ends_bind (fun e => ⟨e, rfl⟩) fun returns hreturns => ?_
      have hmakes := (⟨params, returns, resolve_of_run_mapM_type hparams, resolve_of_run_type hreturns, rfl⟩ :
        new.Makes owner _)
      exact absurd ⟨_, defines_of_run_require hd, hmakes⟩ hadds
    exact .inl hfails

end Build

end StubClosure
