import Mathlib.Order.FixedPoints
import Mathlib.Order.CompletePartialOrder
import StubClosure.Closure.Pass
import StubClosure.Proofs.Receiver
import StubClosure.Proofs.Program.Change
import StubClosure.Proofs.Session.Mention

/-!
# Leaks

What a run is to find, said on sets of types and without passes, sessions or tables. A call in a body of a source type leaks if it goes beyond the source type and hands it, or a type known to need a stub, to its callee. `wanting` is what leaking calls ask for when some types are known: an operator on sets of types, monotone because a call that leaks goes on leaking when more is known. `Exposed` is what a stub has to declare.
-/

namespace StubClosure

/-- An instruction in a body, and the member that it names. -/
structure CallSite where
  body : Body
  index : Nat
  call : Instruction
  callee : Member

namespace CallSite

/-- The type of the local that a virtual call is made on, where it is not the type that the call names. -/
def refined? (c : CallSite) : Option TypeId :=
  if c.call.category = .virtualCall then
    (Receiver.localType? c.body c.index c.callee).filter (· ≠ c.callee.owner)
  else none

/-- The call, made by a source type, hands that type or a known one to a method of another type. -/
structure Leaks (p : Program) (source : TypeId) (known : Set TypeId) (c : CallSite) : Prop where
  own : c.body ∈ p.bodiesOf source
  placed : c.body.instructions[c.index]? = some c.call
  isCall : c.call.isCall = true
  names : c.call.member? = some c.callee
  owner_ne : c.callee.owner ≠ source
  not_nested : ¬ c.callee.owner.isNestedIn source = true
  hands : ∃ t ∈ c.callee.params, p.defines t = true ∧ (t = source ∨ t ∈ known)

theorem Leaks.mono {p : Program} {source : TypeId} {known more : Set TypeId} {c : CallSite}
    (h : c.Leaks p source known) (hk : known ⊆ more) : c.Leaks p source more := by
  obtain ⟨t, ht, hd, hs⟩ := h.hands
  exact { h with hands := ⟨t, ht, hd, hs.imp_right fun h => hk h⟩ }

/-- The call asks for the type that declares its callee, and for the type that it is refined to. -/
def AsksFor (c : CallSite) (t : TypeId) : Prop := t = c.callee.owner ∨ c.refined? = some t

/-- The call is virtual, and the error tells why its receiver can be neither found nor reported. -/
def Fails (c : CallSite) (e : ReceiverError) : Prop :=
  c.call.category = .virtualCall ∧ Receiver.Fails c.body c.index c.callee e

/-- The call is virtual, and its receiver can be neither found nor reported. -/
def IsMute (c : CallSite) : Prop := ∃ e, c.Fails e

end CallSite

namespace Closure

/-- The types of the given names. -/
def namedTypes (p : Program) (names : List String) : Set TypeId :=
  {t | ∃ name ∈ names, ∃ d, p.findType? name = some d ∧ d.id = t}

/-- The program defines the type, and it is neither a source type nor nested in one. -/
def Stubbable (p : Program) (sources : Set TypeId) (t : TypeId) : Prop :=
  p.defines t = true ∧ t ∉ sources ∧ ∀ source ∈ sources, ¬ t.isNestedIn source = true

/-- The calls of the source types that leak when some types are known. -/
def leaking (p : Program) (sources known : Set TypeId) : Set CallSite :=
  {c | ∃ source ∈ sources, c.Leaks p source known}

theorem leaking_mono {p : Program} {sources known more : Set TypeId} (h : known ⊆ more) :
    leaking p sources known ⊆ leaking p sources more := by
  rintro c ⟨source, hs, hc⟩
  exact ⟨source, hs, hc.mono h⟩

/-- What leaking calls ask for when some types are known, as far as it can have a stub. -/
def wanting (p : Program) (sources : Set TypeId) : Set TypeId →o Set TypeId where
  toFun known := {t | Stubbable p sources t ∧ ∃ c ∈ leaking p sources known, c.AsksFor t}
  monotone' := by
    rintro known more hk t ⟨ht, c, hc, ha⟩
    exact ⟨ht, c, leaking_mono hk hc, ha⟩

/-- A body of a source type, or of a type nested in one, mentions the member. -/
def Mentioned (p : Program) (sources : Set TypeId) (s : Signature) : Prop :=
  ∃ source ∈ sources, ∃ t, (t = source ∨ t.isNestedIn source = true) ∧
    ∃ b ∈ p.bodiesOf t, ∃ ins ∈ b.instructions, ∃ m, ins.member? = some m ∧
      (ins.isCall = true ∧ s = p.folded m ∨ ins.isFieldAccess = true ∧ s = m.toSignature)

/-- The member is what the override stands for that a leaking call was refined to. -/
def Refined (p : Program) (sources known : Set TypeId) (t : TypeId) (s : Signature) : Prop :=
  ∃ c ∈ leaking p sources known, c.refined? = some t ∧ ∃ m, p.override? t c.callee = some m ∧ s = p.folded m

/-- The stub of a type has to declare the member. -/
def Exposed (p : Program) (sources known : Set TypeId) (t : TypeId) (s : Signature) : Prop :=
  s.owner = t ∧ Mentioned p sources s ∨ Refined p sources known t s

theorem Exposed.mono {p : Program} {sources known more : Set TypeId} {t : TypeId} {s : Signature}
    (h : Exposed p sources known t s) (hk : known ⊆ more) : Exposed p sources more t s := by
  rcases h with h | ⟨c, hc, hr⟩
  · exact .inl h
  · exact .inr ⟨c, leaking_mono hk hc, hr⟩

/-- Every leaking call can be refined or else reported. -/
def Reportable (p : Program) (sources known : Set TypeId) : Prop :=
  ∀ c ∈ leaking p sources known, ¬ c.IsMute

/-- The error that comes of a leaking call whose receiver can be neither found nor reported. -/
def Muted (p : Program) (sources known : Set TypeId) (e : ClosureError) : Prop :=
  ∃ c ∈ leaking p sources known, ∃ cause, c.Fails cause ∧ e = .receiver cause

theorem reportable_iff {p : Program} {sources known : Set TypeId} :
    Reportable p sources known ↔ ∀ e, ¬ Muted p sources known e := by
  constructor
  · rintro h e ⟨c, hc, cause, hcause, -⟩
    exact h c hc ⟨cause, hcause⟩
  · rintro h c hc ⟨cause, hcause⟩
    exact h _ ⟨c, hc, cause, hcause, rfl⟩

theorem Muted.not_reportable {p : Program} {sources known : Set TypeId} {e : ClosureError}
    (h : Muted p sources known e) : ¬ Reportable p sources known :=
  fun hr => reportable_iff.1 hr e h

theorem Muted.mono {p : Program} {sources known more : Set TypeId} {e : ClosureError} (h : Muted p sources known e)
    (hk : known ⊆ more) : Muted p sources more e := by
  obtain ⟨c, hc, hcause⟩ := h
  exact ⟨c, leaking_mono hk hc, hcause⟩

/-- In the bodies of the types, every load of a local names a slot. -/
def Numbered (p : Program) (sources : Set TypeId) : Prop :=
  ∀ source ∈ sources, ∀ b ∈ p.bodiesOf source, ∀ ins ∈ b.instructions,
    ins.category = .loadLocal → ∃ slot, ins.operand = some (.number slot)

theorem numbered_of_fits {p : Program} (h : p.Fits) (sources : Set TypeId) : Numbered p sources := by
  intro t _ b hb ins hins hload
  obtain ⟨m, -, hbody⟩ := List.mem_filterMap.1 hb
  exact (h _ b hbody ins hins).exists_number (by rw [hload]; rfl)

theorem exists_baffling {p : Program} {sources known : Set TypeId} {c : CallSite} {e : ReceiverError}
    (hc : c ∈ leaking p sources known) (he : c.Fails e) :
    ∃ source ∈ sources, ∃ b ∈ p.bodiesOf source, ∃ ins ∈ b.instructions, Receiver.Baffles ins e := by
  obtain ⟨source, hs, hleaks⟩ := hc
  obtain ⟨-, -, ins, hpushed, hbaffles⟩ := he
  have hmem := List.mem_of_getElem? hpushed
  rw [List.mem_filter, List.mem_reverse] at hmem
  exact ⟨source, hs, c.body, hleaks.own, ins, List.mem_of_mem_take hmem.1, hbaffles⟩

/-- Where loads name their slots, a call fails on nothing but a number that is too long to be written. -/
theorem Muted.exists_unwritable {p : Program} {sources known : Set TypeId} {e : ClosureError}
    (h : Muted p sources known e) (hslots : Numbered p sources) :
    (∃ reason, e = .receiver (.unwritable reason)) ∧ ∃ source ∈ sources, ∃ b ∈ p.bodiesOf source,
      ∃ ins ∈ b.instructions, ∃ n, ins.operand = some (.number n) ∧ Text.unwritableFrom ≤ n.natAbs := by
  obtain ⟨c, hc, cause, hfails, rfl⟩ := h
  obtain ⟨source, hs, b, hb, ins, hins, hbaffles⟩ := exists_baffling hc hfails
  cases hbaffles with
  | noSlot hload hn =>
    obtain ⟨slot, ho⟩ := hslots source hs b hb ins hins hload
    exact absurd ho (hn slot)
  | @unwritable reason hr =>
    obtain ⟨-, n, hn, hlong⟩ := Instruction.exists_render_eq_error_iff.1 ⟨_, hr⟩
    exact ⟨⟨reason, rfl⟩, source, hs, b, hb, ins, hins, n, hn, hlong⟩

theorem reportable_of_numbers {p : Program} {sources : Set TypeId} (known : Set TypeId) (hslots : Numbered p sources)
    (hshort : ∀ source ∈ sources, ∀ b ∈ p.bodiesOf source, ∀ ins ∈ b.instructions, ∀ n,
      ins.operand = some (.number n) → n.natAbs < Text.unwritableFrom) : Reportable p sources known := by
  refine reportable_iff.2 fun e he => ?_
  obtain ⟨-, source, hs, b, hb, ins, hins, n, hn, hlong⟩ := he.exists_unwritable hslots
  have := hshort source hs b hb ins hins n hn
  omega

/-! ## In the zoo -/

theorem namedTypes_zoo : namedTypes Zoo.program ["Foo"] = {Zoo.foo} := by
  have hfind : Zoo.program.findType? "Foo" = some { id := Zoo.foo, methods := [Zoo.make.method] } := by decide
  ext t
  simp [namedTypes, hfind, eq_comm]

/-- The call in the zoo, in its place. -/
def speakSite : CallSite where
  body := Zoo.make
  index := 2
  call := Zoo.callSpeak
  callee := Zoo.speak

theorem leaking_zoo (known : Set TypeId) : leaking Zoo.program {Zoo.foo} known = {speakSite} := by
  ext c
  constructor
  · rintro ⟨source, rfl, hc⟩
    obtain ⟨body, index, call, callee⟩ := c
    obtain rfl : body = Zoo.make := by
      have hown := hc.own
      rwa [Zoo.bodiesOf_foo, List.mem_singleton] at hown
    have hplaced := hc.placed
    have hcall := hc.isCall
    have hnames := hc.names
    match index with
    | 0 =>
      obtain rfl := Option.some.inj hplaced
      cases hcall
    | 1 =>
      obtain rfl := Option.some.inj hplaced
      cases hcall
    | 2 =>
      obtain rfl := Option.some.inj hplaced
      obtain rfl := Option.some.inj hnames
      rfl
    | index + 3 => cases hplaced
  · rintro rfl
    refine ⟨Zoo.foo, rfl, ⟨?_, rfl, rfl, rfl, by decide, by decide, ?_⟩⟩
    · rw [Zoo.bodiesOf_foo]
      exact List.mem_singleton_self _
    · exact ⟨Zoo.foo, List.mem_singleton_self _, by decide, .inl rfl⟩

theorem wanting_zoo (known : Set TypeId) : wanting Zoo.program {Zoo.foo} known = {Zoo.animal, Zoo.dog} := by
  have hrefined : speakSite.refined? = some Zoo.dog := by decide
  have hsite : speakSite ∈ leaking Zoo.program {Zoo.foo} known := by
    rw [leaking_zoo]
    rfl
  ext t
  constructor
  · rintro ⟨-, c, hc, hasks⟩
    rw [leaking_zoo] at hc
    obtain rfl := Set.mem_singleton_iff.1 hc
    rcases hasks with rfl | hasks
    · exact .inl rfl
    · exact .inr (Option.some.inj (hasks.symm.trans hrefined))
  · rintro (rfl | rfl)
    · refine ⟨⟨by decide, by decide, ?_⟩, speakSite, hsite, .inl rfl⟩
      rintro source rfl
      decide
    · refine ⟨⟨by decide, by decide, ?_⟩, speakSite, hsite, .inr hrefined⟩
      rintro source rfl
      decide

theorem reportable_zoo (known : Set TypeId) : Reportable Zoo.program {Zoo.foo} known := by
  have hoperand : ∀ ins ∈ Zoo.make.instructions, ins.operand = some (.number 0) ∨
      ins.category ≠ .loadLocal ∧ ins.operand = some (.member Zoo.speak) := by
    decide
  refine reportable_of_numbers known ?_ ?_
  · rintro source rfl b hb ins hins hl
    rw [Zoo.bodiesOf_foo, List.mem_singleton] at hb
    subst hb
    rcases hoperand ins hins with h | ⟨h, -⟩
    · exact ⟨0, h⟩
    · exact absurd hl h
  · rintro source rfl b hb ins hins n hn
    rw [Zoo.bodiesOf_foo, List.mem_singleton] at hb
    subst hb
    rcases hoperand ins hins with h | ⟨-, h⟩
    · obtain rfl : 0 = n := by simpa [h] using hn
      exact Text.lt_unwritableFrom (Nat.zero_le _)
    · rw [h] at hn
      cases hn

end Closure

end StubClosure
