import StubClosure.Proofs.Closure.Repass
import StubClosure.Proofs.Closure.Termination

/-!
# Runs are safe

A run can fail in many places: stub sets refuse keys and members, receivers are asked for at places that hold no virtual call, an origin may be missing. None of these is ever met, whatever was done to build the program. A name that no defined type has ends the run, after one report; and a run that is not to stub everything fails if it comes upon a mute call. Every other run has a result, in which each key can have a stub and declares only members of its own.

What makes a call mute depends on the instructions that the program was built from. If they fit their mnemonics, every load of a local names a slot, and all that can be in the way of a report is a number that is too long to be written.
-/

namespace StubClosure.Closure

variable {p : Program} {sources : List TypeId}

/-- What holds of a result, whatever the options. -/
structure Safe (p : Program) (names : List String) (r : ClosureResult) : Prop where
  isFrozen : r.stubs.isFrozen = true
  stubbable : ∀ t ∈ r.stubs.entries.keys, Stubbable p (namedTypes p names) t
  owner_eq : ∀ t ∈ r.stubs.entries.keys, ∃ members, r.stubs.members t = .ok members ∧ ∀ m ∈ members.values, m.owner = t

theorem Exposed.owner_eq (hp : p.Coherent) {named known : Set TypeId} {t : TypeId} {s : Signature}
    (h : Exposed p named known t s) : s.owner = t := by
  rcases h with h | ⟨c, -, -, m, hm, rfl⟩
  · exact h.1
  · exact (hp.owner_folded m).trans (hp.owner_override hm)

theorem Sound.safe (hp : p.Coherent) {names : List String} {run : Run} (h : Sound p sources run)
    (hset : {t | t ∈ sources} = namedTypes p names) (passes : List PassSummary) :
    Safe p names (result sources passes run) where
  isFrozen := rfl
  stubbable := by
    intro t ht
    rw [← hset]
    exact h.stubbable t ht
  owner_eq := by
    intro t ht
    obtain ⟨members, hmembers⟩ := Table.exists_find?_of_mem (show t ∈ run.stubs.entries.keys from ht)
    refine ⟨members, ?_, fun m hm => ?_⟩
    · unfold StubSet.members
      rw [show (result sources passes run).stubs.entries = run.stubs.entries from rfl, hmembers]
    · have hkeyed := h.keyed t
      have hexposed := h.exposed t m.toSignature
      rw [membersAt_of_find? hmembers] at hkeyed hexposed
      exact (hexposed (hkeyed.mem_keys hm)).owner_eq hp

theorem run_resolveNames_of_unknown {before : List String} {name : String} (after : List String)
    (hb : ∀ other ∈ before, p.findType? other ≠ none) (hn : p.findType? name = none) (run : Run) :
    (resolveNames p (before ++ name :: after)).run.run run = (.error (.unresolved name),
      { run with session := { run.session with sink := run.session.sink.emitAll [unresolvedSource name] } }) := by
  induction before with
  | nil =>
    rw [List.nil_append, resolveNames, hn]
    rfl
  | cons first rest ih =>
    obtain ⟨d, hd⟩ := Option.ne_none_iff_exists'.1 (hb first List.mem_cons_self)
    rw [List.cons_append, resolveNames, hd]
    exact Step.run_bind_of_error (ih fun other ho => hb other (List.mem_cons_of_mem _ ho))

theorem run_of_unknown {before after : List String} {name : String} (hb : ∀ other ∈ before, p.findType? other ≠ none)
    (hn : p.findType? name = none) (options : ClosureOptions) (session : Session) :
    (run p (before ++ name :: after) options session).1 = .error (.unresolved name) ∧
      (run p (before ++ name :: after) options session).2.sink.diagnostics =
        session.sink.diagnostics ++ [unresolvedSource name] := by
  have hnames := run_resolveNames_of_unknown after hb hn { session }
  have hsources : (resolveSources p (before ++ name :: after)).run.run { session } = _ :=
    Step.run_bind_of_error hnames
  rw [run_of_unresolved hsources]
  exact ⟨rfl, Sink.diagnostics_emitAll session.sink _⟩

theorem run_safe_cases (hp : p.Built) {names : List String} (hknown : ∀ name ∈ names, p.Knows name)
    (options : ClosureOptions) (sink : Sink) :
    (options.generateAll = true ∨ Reportable p (namedTypes p names) (wanting p (namedTypes p names)).lfp) ∧
      (∃ r, (run p names options { sink }).1 = .ok r ∧ Safe p names r) ∨
    options.generateAll = false ∧
      ∃ e, Muted p (namedTypes p names) (wanting p (namedTypes p names)).lfp e ∧
        (run p names options { sink }).1 = .error e := by
  have hn : ∀ name ∈ names, p.findType? name ≠ none :=
    fun name h => hp.indexed.findType?_ne_none_iff.2 (hknown name h)
  cases hg : options.generateAll with
  | true =>
    obtain ⟨sources, summary, after, hset, hrun, hsound, -⟩ := exists_run_of_generateAll hp.coherent hp.indexed hn hg
      { sink } (Memory.faithful_empty p)
    exact .inl ⟨.inl rfl, _, congrArg Prod.fst hrun, hsound.safe hp.coherent hset _⟩
  | false =>
    rcases run_cases hp hn options hg sink with hfail | ⟨hreport, sources, passes, after, hset, hok, hsettled, -⟩
    · exact .inr ⟨rfl, hfail⟩
    · exact .inl ⟨.inr hreport, _, hok, hsettled.sound.safe hp.coherent hset _⟩

/-- **Runs are safe.** Building may go through any steps, of which any may fail. A run then fails on the first name that no defined type has, after one report. If every name is known, it fails exactly if it is not to stub everything and some call is mute that leaks with respect to the least fixed point of what is wanted; else it has a result, which is safe. If the instructions that were given fit their mnemonics, then in every body a call names a member and a load of an argument or local a slot; and a run from known names has a safe result, or else a number in some body of a source type is too long to be written, and the run fails on that. -/
theorem run_safe (title : String) (steps : List BuildStep) (names : List String) (options : ClosureOptions) (sink : Sink) :
    let p := Program.build title steps
    let ended := run p names options { sink }
    let reportable := Reportable p (namedTypes p names) (wanting p (namedTypes p names)).lfp
    (∀ before name after, names = before ++ name :: after → (∀ other ∈ before, p.Knows other) → ¬ p.Knows name →
      ended.1 = .error (.unresolved name) ∧ ended.2.sink.diagnostics = sink.diagnostics ++ [unresolvedSource name]) ∧
    ((∀ name ∈ names, p.Knows name) →
      (options.generateAll = true ∨ reportable → ∃ r, ended.1 = .ok r ∧ Safe p names r) ∧
      (options.generateAll = false → ¬ reportable →
        ∃ e, Muted p (namedTypes p names) (wanting p (namedTypes p names)).lfp e ∧ ended.1 = .error e)) ∧
    ((∀ step ∈ steps, step.Fits) →
      (∀ t, ∀ b ∈ p.bodiesOf t, ∀ ins ∈ b.instructions,
        (ins.isCall = true → ∃ m, ins.member? = some m) ∧
        (ins.category.isSlot = true → ∃ slot, ins.operand = some (.number slot))) ∧
      ((∀ name ∈ names, p.Knows name) →
        (∃ r, ended.1 = .ok r ∧ Safe p names r) ∨
        (∃ source ∈ namedTypes p names, ∃ b ∈ p.bodiesOf source, ∃ ins ∈ b.instructions, ∃ n,
          ins.operand = some (.number n) ∧ Text.unwritableFrom ≤ n.natAbs) ∧
        options.generateAll = false ∧ ∃ reason, ended.1 = .error (.receiver (.unwritable reason)))) := by
  intro p ended reportable
  have hp : p.Built := Program.built_build title steps
  refine ⟨?_, fun hknown => ?_, fun hfits => ⟨?_, fun hknown => ?_⟩⟩
  · rintro before name after rfl hb hn
    have hn' : p.findType? name = none := not_not.1 fun h => hn (hp.indexed.findType?_ne_none_iff.1 h)
    exact run_of_unknown (fun other ho => hp.indexed.findType?_ne_none_iff.2 (hb other ho)) hn' options { sink }
  · rcases run_safe_cases hp hknown options sink with ⟨hsome, hresult⟩ | ⟨hg, e, hmuted, hfail⟩
    · exact ⟨fun _ => hresult, fun hg hno => absurd (hsome.resolve_left (by simp [hg])) hno⟩
    · refine ⟨fun h => ?_, fun _ _ => ⟨e, hmuted, hfail⟩⟩
      exact absurd (h.resolve_left (by simp [hg])) hmuted.not_reportable
  · intro t b hb ins hi
    obtain ⟨m, -, hbody⟩ := List.mem_filterMap.1 hb
    have hins := Program.fits_build title hfits _ b hbody ins hi
    exact ⟨hins.exists_member, hins.exists_number⟩
  · rcases run_safe_cases hp hknown options sink with ⟨-, hresult⟩ | ⟨hg, e, hmuted, hfail⟩
    · exact .inl hresult
    · obtain ⟨⟨reason, rfl⟩, hlong⟩ := hmuted.exists_unwritable (numbered_of_fits (Program.fits_build title hfits) _)
      exact .inr ⟨hlong, hg, reason, hfail⟩

/-- In the zoo, whose instructions fit, a run for `Foo` has a result, and one for `Foo` and `Bar` fails on `Bar`. -/
theorem run_safe_zoo :
    (∃ r, (run Zoo.program ["Foo"] {} { sink := {} }).1 = .ok r ∧ Safe Zoo.program ["Foo"] r) ∧
    (run Zoo.program ["Foo", "Bar"] {} { sink := {} }).1 = .error (.unresolved "Bar") ∧
    (∀ step ∈ Zoo.steps, step.Fits) ∧
    ∀ b ∈ Zoo.program.bodiesOf Zoo.foo, ∀ ins ∈ b.instructions, ins.isCall = true → ∃ m, ins.member? = some m := by
  have hfoo : ∀ name ∈ ["Foo"], Zoo.program.Knows name := by
    rintro _ (_ | ⟨_, ⟨⟩⟩)
    exact ⟨Zoo.foo, by decide, by decide⟩
  have hbar : ¬ Zoo.program.Knows "Bar" := by
    rw [← Zoo.built.indexed.findType?_ne_none_iff]
    decide
  obtain ⟨-, hresult, hfitting⟩ := run_safe "zoo" Zoo.steps ["Foo"] {} {}
  have hreport := reportable_zoo (wanting Zoo.program {Zoo.foo}).lfp
  rw [← namedTypes_zoo] at hreport
  refine ⟨(hresult hfoo).1 (.inr hreport), ?_, Zoo.fits_steps, fun b hb ins hins => ?_⟩
  · exact ((run_safe "zoo" Zoo.steps ["Foo", "Bar"] {} {}).1 ["Foo"] "Bar" [] rfl hfoo hbar).1
  · exact ((hfitting Zoo.fits_steps).1 _ b hb ins hins).1

end StubClosure.Closure
