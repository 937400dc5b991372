import Mathlib.Data.List.Perm.Basic
import StubClosure.Proofs.Program.Locality

/-!
# Steps in another order

Steps that look at different types may change places: neither sees what the other does. So a list of steps that falls into blocks, each with types of its own, may be taken in any order of the blocks (`relOn_takeAll?_perm`). Either all orders fail somewhere, or all lead to programs that keep the same under every type. The tables of these programs are in different orders, so the programs are not equal.
-/

namespace StubClosure

namespace Program

variable {p q r : Program} {within other : Set TypeId}

/-! ## Outcomes that are the same -/

/-- Both fail, or both come to programs that have the same of the types. -/
abbrev RelOn (within : Set TypeId) : Option Program → Option Program → Prop := Option.Rel (SameOn within)

theorem relOn_symm {x y : Option Program} (h : RelOn within x y) : RelOn within y x := by
  cases h with
  | none => exact .none
  | some h => exact .some h.symm

theorem relOn_trans {x y z : Option Program} (h : RelOn within x y) (h' : RelOn within y z) : RelOn within x z := by
  cases h with
  | none => exact h'
  | some h =>
    cases h' with
    | some h' => exact .some (h.trans h')

theorem exists_of_relOn {x y : Option Program} (h : RelOn within x y) (hx : x = some p) :
    ∃ q, y = some q ∧ p.SameOn within q := by
  subst hx
  cases h with
  | some h => exact ⟨_, rfl, h⟩

theorem relOn_bind {x y : Option Program} {next next' : Program → Option Program} (h : RelOn within x y)
    (hn : ∀ p q, x = some p → y = some q → p.SameOn within q → RelOn other (next p) (next' q)) :
    RelOn other (x.bind next) (y.bind next') := by
  cases h with
  | none => exact .none
  | some h => exact hn _ _ rfl rfl h

end Program

/-- The program that the step leaves, if it succeeds. -/
def BuildStep.next? (step : BuildStep) (p : Program) : Option Program :=
  (step.outcome p).toOption.map fun _ => step.after p

/-- Steps of building, some of which may be missing. -/
abbrev Offers := List (Option BuildStep)

/-- The steps that are there look at the given types alone. -/
def Offers.Within (within : Set TypeId) (offers : Offers) : Prop := ∀ step, some step ∈ offers → step.Within within

theorem Offers.Within.mono {within other : Set TypeId} {offers : Offers} (hw : offers.Within within)
    (hs : within ⊆ other) : offers.Within other := fun step h => (hw step h).mono hs

namespace Program

variable {p q r : Program} {within other : Set TypeId} {offers : Offers}

/-- Takes steps one after the other. Nothing comes of it if one is missing or fails. -/
def takeAll? (offers : Offers) (p : Program) : Option Program :=
  offers.foldlM (fun p offer => offer.bind (·.next? p)) p

theorem takeAll?_cons (offer : Option BuildStep) (rest : Offers) :
    takeAll? (offer :: rest) p = (offer.bind (·.next? p)).bind (takeAll? rest) := rfl

theorem takeAll?_append (first second : Offers) :
    takeAll? (first ++ second) p = (takeAll? first p).bind (takeAll? second) := List.foldlM_append

theorem eq_after_of_next? {step : BuildStep} (h : step.next? p = some q) : q = step.after p := by
  obtain ⟨_, _, rfl⟩ := Option.map_eq_some_iff.1 h
  rfl

/-- Steps are taken alike in programs that have the same of what they look at. -/
theorem relOn_takeAll? (hw : offers.Within within) (h : p.SameOn within q) :
    RelOn within (takeAll? offers p) (takeAll? offers q) := by
  induction offers generalizing p q with
  | nil => exact .some h
  | cons offer rest ih =>
    rw [takeAll?_cons, takeAll?_cons]
    cases offer with
    | none => exact .none
    | some step =>
      have hstep : RelOn within (step.next? p) (step.next? q) := by
        obtain ⟨houtcome, hafter⟩ := BuildStep.twins_perform (hw step List.mem_cons_self) h
        unfold BuildStep.next?
        rw [houtcome]
        cases step.outcome p with
        | error e => exact .none
        | ok u => exact .some hafter
      apply relOn_bind hstep
      intro p q _ _ h
      exact ih (fun other ho => hw other (List.mem_cons_of_mem _ ho)) h

theorem sameOn_takeAll? (hp : p.Coherent) (hw : offers.Within within) (h : takeAll? offers p = some q) :
    p.SameOn withinᶜ q ∧ q.Coherent := by
  induction offers generalizing p with
  | nil =>
    obtain rfl := Option.some.inj h
    exact ⟨sameOn_refl _ p, hp⟩
  | cons offer rest ih =>
    rw [takeAll?_cons] at h
    obtain ⟨next, hnext, hrest⟩ := Option.bind_eq_some_iff.1 h
    obtain ⟨step, rfl, hstep⟩ := Option.bind_eq_some_iff.1 hnext
    obtain rfl := eq_after_of_next? hstep
    have hfirst := BuildStep.sameOn_after hp (hw step List.mem_cons_self)
    obtain ⟨hsame, hcoherent⟩ := ih (step.coherent_after hp) (fun other ho => hw other (List.mem_cons_of_mem _ ho)) hrest
    exact ⟨hfirst.trans hsame, hcoherent⟩

/-! ## Blocks that change places -/

/-- It does not matter which of two blocks is taken first. -/
def Free (first second : Offers) : Prop :=
  ∀ p : Program, p.Coherent → RelOn Set.univ (takeAll? (first ++ second) p) (takeAll? (second ++ first) p)

theorem Free.symm {first second : Offers} (h : Free first second) : Free second first :=
  fun p hp => relOn_symm (h p hp)

/-- What was done under other types makes no difference. -/
theorem relOn_of_other {first second : Offers} (hp : p.Coherent) (hf : first.Within within)
    (hs : second.Within other) (hd : within ⊆ otherᶜ) (h : takeAll? second p = some q) :
    RelOn otherᶜ (takeAll? first p) (takeAll? first q) :=
  relOn_takeAll? (hf.mono hd) (sameOn_takeAll? hp hs h).1

theorem exists_takeAll?_swapped {first second : Offers} (hp : p.Coherent) (hf : first.Within within)
    (hs : second.Within other) (hd : within ⊆ otherᶜ) {x : Program} (h : takeAll? (first ++ second) p = some x) :
    ∃ y, takeAll? (second ++ first) p = some y ∧ x.SameOn Set.univ y := by
  have hd' : other ⊆ withinᶜ := fun t ht hw => hd hw ht
  rw [takeAll?_append] at h
  obtain ⟨r, hr, hx⟩ := Option.bind_eq_some_iff.1 h
  obtain ⟨q, hq, hqx⟩ := exists_of_relOn (relOn_symm (relOn_of_other hp hs hf hd' hr)) hx
  obtain ⟨y, hy, hry⟩ := exists_of_relOn (relOn_of_other hp hf hs hd hq) hr
  refine ⟨y, ?_, ?_⟩
  · rw [takeAll?_append, hq]
    exact hy
  · -- under the types of one block, what this block did to either program counts
    have hrx := (sameOn_takeAll? (sameOn_takeAll? hp hf hr).2 hs hx).1
    have hqy := (sameOn_takeAll? (sameOn_takeAll? hp hs hq).2 hf hy).1
    have hunion := (hrx.symm.trans hry).union (hqx.trans hqy)
    refine hunion.mono fun t _ => ?_
    by_cases ht : t ∈ other
    · exact .inr (hd' ht)
    · exact .inl ht

/-- **Blocks that look at different types may change places.** -/
theorem free_of_disjoint {first second : Offers} (hf : first.Within within) (hs : second.Within other)
    (hd : within ⊆ otherᶜ) : Free first second := by
  have hd' : other ⊆ withinᶜ := fun t ht hw => hd hw ht
  intro p hp
  cases hx : takeAll? (first ++ second) p with
  | some x =>
    obtain ⟨y, hy, hsame⟩ := exists_takeAll?_swapped hp hf hs hd hx
    rw [hy]
    exact .some hsame
  | none =>
    cases hy : takeAll? (second ++ first) p with
    | none => exact .none
    | some y =>
      obtain ⟨x, hsome, -⟩ := exists_takeAll?_swapped hp hs hf hd' hy
      cases hx.symm.trans hsome

/-- **Blocks that may change places may be taken in any order.** -/
theorem relOn_takeAll?_perm {α : Type} {block : α → Offers} {items items' : List α} (hperm : items.Perm items')
    (hw : ∀ a ∈ items, (block a).Within Set.univ) (hf : items.Pairwise fun a b => Free (block a) (block b))
    (hp : p.Coherent) (hq : q.Coherent) (h : p.SameOn Set.univ q) :
    RelOn Set.univ (takeAll? (items.flatMap block) p) (takeAll? (items'.flatMap block) q) := by
  induction hperm generalizing p q with
  | nil => exact .some h
  | cons a _ ih =>
    rw [List.flatMap_cons, List.flatMap_cons, takeAll?_append, takeAll?_append]
    have hblock := hw a List.mem_cons_self
    apply relOn_bind (relOn_takeAll? hblock h)
    intro p' q' hp' hq' h'
    exact ih (fun b hb => hw b (List.mem_cons_of_mem _ hb)) hf.of_cons (sameOn_takeAll? hp hblock hp').2
      (sameOn_takeAll? hq hblock hq').2 h'
  | swap a b rest =>
    simp only [List.flatMap_cons]
    rw [← List.append_assoc, ← List.append_assoc, takeAll?_append (block b ++ block a),
      takeAll?_append (block a ++ block b)]
    have hfree : Free (block b) (block a) := (List.pairwise_cons.1 hf).1 a List.mem_cons_self
    have hboth : (block a ++ block b : Offers).Within Set.univ := by
      intro step hstep
      rcases List.mem_append.1 hstep with hstep | hstep
      · exact hw a (by simp) step hstep
      · exact hw b (by simp) step hstep
    apply relOn_bind (relOn_trans (hfree p hp) (relOn_takeAll? hboth h))
    intro p' q' _ _ h'
    apply relOn_takeAll? _ h'
    intro step hstep
    obtain ⟨c, hc, hstep⟩ := List.mem_flatMap.1 hstep
    exact hw c (by simp [hc]) step hstep
  | trans hfirst _ ih ih' =>
    have hw' := fun a ha => hw a (hfirst.mem_iff.2 ha)
    have hf' := (hfirst.pairwise_iff fun h => h.symm).1 hf
    exact relOn_trans (ih hw hf hp hp (sameOn_refl _ p)) (ih' hw' hf' hp hq h)

/-! ## Types that are there -/

theorem defines_after {t : TypeId} (h : p.defines t = true) (step : BuildStep) : (step.after p).defines t = true := by
  rw [defines, Table.contains_iff] at h ⊢
  rcases (step.changes_after p).index with ⟨-, hk⟩ | ⟨other, -, -, hk⟩
  · rw [hk]
    exact h
  · rw [hk]
    exact List.mem_append_left _ h

theorem defines_takeAll? {t : TypeId} (h : p.defines t = true) (ht : takeAll? offers p = some q) :
    q.defines t = true := by
  induction offers generalizing p with
  | nil =>
    obtain rfl := Option.some.inj ht
    exact h
  | cons offer rest ih =>
    rw [takeAll?_cons] at ht
    obtain ⟨next, hnext, hrest⟩ := Option.bind_eq_some_iff.1 ht
    obtain ⟨step, rfl, hstep⟩ := Option.bind_eq_some_iff.1 hnext
    obtain rfl := eq_after_of_next? hstep
    exact ih (defines_after h step) hrest

theorem defines_of_next?_type {t : TypeId} {base : Option TypeArg} {interfaces : List TypeArg} {isPublic : Bool}
    (h : (BuildStep.type (.id t) base interfaces isPublic).next? p = some q) :
    p.defines t = false ∧ q.defines t = true := by
  let works := (Build.addType (.id t) base interfaces isPublic).run.run p
  have hq : works.2 = q ∧ ∃ a, works.1 = .ok a := by
    let forgets : Build Unit := do let _ ← Build.addType (.id t) base interfaces isPublic
    replace h : ((forgets.run.run p).1.toOption.map fun _ => (forgets.run.run p).2) = some q := h
    rw [show forgets.run.run p = (works.1.map fun _ => (), works.2) from Step.run_forget _ p] at h
    cases hw : works.1 with
    | error e =>
      rw [hw] at h
      cases h
    | ok a =>
      rw [hw] at h
      exact ⟨Option.some.inj h, a, rfl⟩
  have hdefine : ∀ around : Program, works = (Build.defineType t base interfaces isPublic).run.run around →
      q.defines t = true := by
    intro around hrun
    obtain ⟨rfl, a, ha⟩ := hq
    rw [hrun] at ha ⊢
    rcases Build.run_defineType_cases t base interfaces isPublic with ⟨-, e, herror⟩ | ⟨-, found, others, hok⟩
    · rw [herror] at ha
      cases ha
    · rw [hok]
      exact (defines_define_iff _ t).2 (.inl rfl)
  rcases Build.run_addType_cases p (.id t) base interfaces isPublic with
    ⟨e, hrun⟩ | ⟨found, outer, hadds, hrun⟩ | ⟨found, hfound, hnew, -, hrun⟩
  · obtain ⟨-, a, ha⟩ := hq
    cases ha.symm.trans (congrArg Prod.fst hrun)
  · obtain rfl := Except.ok.inj hadds.resolves
    exact ⟨hadds.isNew, hdefine _ hrun⟩
  · obtain rfl := Except.ok.inj hfound
    exact ⟨hnew, hdefine _ hrun⟩

end Program

end StubClosure
