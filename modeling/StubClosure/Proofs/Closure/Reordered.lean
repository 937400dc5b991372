import StubClosure.Proofs.Closure.Reports
import StubClosure.Proofs.Listing.Joined
import StubClosure.Proofs.Listing.Reordered

/-!
# The order of declarations

The tables of a program are in the order in which its types and members were added. A run does not see it, as long as no two types have one full name: types are looked up by identity or by name, all that is listed is sorted first, and the members of one type are in the order of its own declaration. So listings that differ in the order of their types only have the same runs (`run_reordered`). Texts of declarations that are put one after the other make such listings in any order (`parse_joined_of_perm`).
-/

namespace StubClosure

namespace Program

variable {p q : Program}

theorem Built.find?_names_eq_some_iff (hp : p.Built) (hn : p.NamesApart) {name : String} {t : TypeId} :
    p.names.find? name = some t ↔ p.defines t = true ∧ t.fullName = name := by
  constructor
  · intro h
    obtain ⟨hmem, hname⟩ := hp.indexed.sound name t h
    exact ⟨Table.contains_iff.2 hmem, hname⟩
  · rintro ⟨ht, rfl⟩
    obtain ⟨d, hd⟩ := exists_type?_of_defines ht
    obtain rfl := (hp.coherent.type t d hd).id_eq
    have hfound := hp.find_all_iff.2 hn d (hp.mem_values_iff.2 hd)
    obtain ⟨other, hother, hd'⟩ := Option.bind_eq_some_iff.1 hfound
    rw [hother, (hp.coherent.type other d hd').id_eq]

section
variable (hp : p.Built) (hq : q.Built) (hn : p.NamesApart) (h : p.SameOn Set.univ q)
include hp hq hn h

theorem SameOn.sameTypes : p.SameTypes q where
  type? := funext fun t => h.type t trivial
  listed := by
    rw [hp.indexed.map_id_values hp.coherent, hq.indexed.map_id_values hq.coherent]
    have hmem : ∀ t, t ∈ q.types.keys ↔ t ∈ p.types.keys := by
      intro t
      rw [← Table.contains_iff, ← Table.contains_iff]
      exact iff_of_eq (congrArg (· = true) (h.defines trivial))
    apply sortOn_congr ((List.perm_ext_iff_of_nodup hq.indexed.nodup hp.indexed.nodup).2 hmem)
    intro t ht other ho he
    exact hn t other (Table.contains_iff.2 ((hmem t).1 ht)) (Table.contains_iff.2 ((hmem other).1 ho)) he

theorem SameOn.findType?_eq : q.findType? = p.findType? := by
  have htypes := h.sameTypes hp hq hn
  have hn' : q.NamesApart := by
    intro t other ht ho
    rw [htypes.defines] at ht ho
    exact hn t other ht ho
  funext name
  unfold findType?
  rw [htypes.type?]
  congr 1
  ext t
  rw [hp.find?_names_eq_some_iff hn, hq.find?_names_eq_some_iff hn', htypes.defines]

end

theorem SameOn.bodiesOf_eq (h : p.SameOn Set.univ q) (t : TypeId) : q.bodiesOf t = p.bodiesOf t := by
  unfold bodiesOf
  rw [h.type t trivial]
  exact List.filterMap_congr fun m _ => h.body m.toSignature trivial

end Program

namespace Closure

open Listing

theorem run_congr_of_sameOn {p q : Program} (hp : p.Built) (hq : q.Built) (hn : p.NamesApart) (h : p.SameOn Set.univ q)
    (names : List String) (options : ClosureOptions) (session : Session) :
    run q names options session = run p names options session :=
  run_congr_of_scanned (h.sameTypes hp hq hn) (h.findType?_eq hp hq hn) (fun _ _ t _ => h.bodiesOf_eq t) options session

section
variable {source source' : String} {types types' : List TypeDecl} (hparse : parse source = .ok types)
  (hparse' : parse source' = .ok types') (hperm : (types'.map TypeDecl.bare).Perm (types.map TypeDecl.bare))
  (hs : ∀ t ∈ types, t.IsSlashless) {name : String} {file : Option String}
include hparse hparse' hperm hs

theorem exists_load_iff_of_perm :
    (∃ p, load source name file = .ok p) ↔ ∃ p', load source' name file = .ok p' := by
  have hrel : Program.RelOn Set.univ (load source name file).toOption (load source' name file).toOption :=
    relOn_load hparse hparse' hperm hs
  rcases hload : load source name file with e | p <;> rcases hload' : load source' name file with e' | p' <;>
    rw [hload, hload'] at hrel
  · exact ⟨by rintro ⟨p, ⟨⟩⟩, by rintro ⟨p, ⟨⟩⟩⟩
  · cases hrel
  · cases hrel
  · exact ⟨fun _ => ⟨p', rfl⟩, fun _ => ⟨p, rfl⟩⟩

theorem sameOn_of_load_of_perm {p p' : Program} (hload : load source name file = .ok p)
    (hload' : load source' name file = .ok p') : p.SameOn Set.univ p' := by
  have hrel : Program.RelOn Set.univ (load source name file).toOption (load source' name file).toOption :=
    relOn_load hparse hparse' hperm hs
  rw [hload, hload'] at hrel
  cases hrel with
  | some hsame => exact hsame

end

/-- **The order of declarations does not matter.** Texts that are listings by themselves make one listing when they are put one after the other, and in another order they make one that has the same types in another order. Now let any two listings have the same types in different orders, and no slash in the names of these. Both load or neither does. If no two of the types that they declare have one full name, then any run of the one program is that of the other, its outcome, reports and memory included, and the manifests of what it comes to are the same. -/
theorem run_reordered :
    (∀ texts texts' : List String, texts'.Perm texts → (∀ source ∈ texts, ∃ types, parse source = .ok types) →
      ∃ types types', parse (joined texts) = .ok types ∧ parse (joined texts') = .ok types' ∧
        (types'.map TypeDecl.bare).Perm (types.map TypeDecl.bare)) ∧
    ∀ (source source' : String) (types types' : List TypeDecl), parse source = .ok types → parse source' = .ok types' →
      (types'.map TypeDecl.bare).Perm (types.map TypeDecl.bare) → (∀ t ∈ types, t.IsSlashless) →
      ∀ (name : String) (file : Option String),
        ((∃ p, load source name file = .ok p) ↔ ∃ p', load source' name file = .ok p') ∧
        ∀ p p', load source name file = .ok p → load source' name file = .ok p' → p.NamesApart →
          (∀ names options session, run p' names options session = run p names options session) ∧
          ∀ r title, Manifest.build r p' title = Manifest.build r p title := by
  refine ⟨fun texts texts' hperm hparse => parse_joined_of_perm hperm hparse, ?_⟩
  intro source source' types types' hparse hparse' hperm hs name file
  refine ⟨exists_load_iff_of_perm hparse hparse' hperm hs, fun p p' hload hload' hn => ?_⟩
  have hp := built_of_load hload
  have hp' := built_of_load hload'
  have hsame := sameOn_of_load_of_perm hparse hparse' hperm hs hload hload'
  exact ⟨run_congr_of_sameOn hp hp' hn hsame, build_congr_of_sameTypes (hsame.sameTypes hp hp' hn)⟩

/-- It does not matter that the call in `Foo` comes before the type that it names, nor do the texts of the two types have to be in this order. -/
theorem run_reordered_stray :
    (∃ types types', parse (joined (Stray.types.map fun t => text [t])) = .ok types ∧
      parse (joined (Stray.types.map fun t => text [t]).reverse) = .ok types' ∧
      (types'.map TypeDecl.bare).Perm (types.map TypeDecl.bare)) ∧
    parse (text Stray.types) = .ok (placeTypes {} Stray.types) ∧
    parse (text Stray.types.reverse) = .ok (placeTypes {} Stray.types.reverse) ∧
    ((placeTypes {} Stray.types.reverse).map TypeDecl.bare).Perm ((placeTypes {} Stray.types).map TypeDecl.bare) ∧
    (∀ t ∈ placeTypes {} Stray.types, t.IsSlashless) ∧
    ∃ p p', load (text Stray.types) "stray" none = .ok p ∧ load (text Stray.types.reverse) "stray" none = .ok p' ∧
      p.NamesApart ∧ run p' ["Foo"] {} {} = run p ["Foo"] {} {} := by
  have hformed : ∀ t ∈ Stray.types, t.WellFormed := by decide +kernel
  have hpieces : ∀ source ∈ Stray.types.map fun t => text [t], ∃ types, parse source = .ok types := by
    intro source hmem
    obtain ⟨t, ht, rfl⟩ := List.mem_map.1 hmem
    exact ⟨_, parse_text (List.forall_mem_singleton.2 (hformed t ht))⟩
  have hparse : parse (text Stray.types) = .ok (placeTypes {} Stray.types) := parse_text hformed
  have hparse' : parse (text Stray.types.reverse) = .ok (placeTypes {} Stray.types.reverse) :=
    parse_text fun t ht => hformed t (List.mem_reverse.1 ht)
  have hperm : ((placeTypes {} Stray.types.reverse).map TypeDecl.bare).Perm
      ((placeTypes {} Stray.types).map TypeDecl.bare) := by
    rw [bare_placeTypes, bare_placeTypes]
    exact (List.reverse_perm Stray.types).map TypeDecl.bare
  have hs : ∀ t ∈ placeTypes {} Stray.types, t.IsSlashless := by decide
  obtain ⟨hjoined, hlistings⟩ := run_reordered
  obtain ⟨hloads, hruns⟩ := hlistings _ _ _ _ hparse hparse' hperm hs "stray" none
  obtain ⟨p, hload, -, -, -, hkeys⟩ := Stray.exists_load
  have hn : p.NamesApart := by
    intro t other ht ho
    rw [Program.defines, Table.contains_iff, hkeys] at ht ho
    have happart : ∀ t ∈ [Stray.foo, Stray.take.owner], ∀ other ∈ [Stray.foo, Stray.take.owner],
        t.fullName = other.fullName → t = other := by decide
    exact happart t ht other ho
  obtain ⟨p', hload'⟩ := hloads.1 ⟨p, hload⟩
  exact ⟨hjoined _ _ (List.reverse_perm _) hpieces, hparse, hparse', hperm, hs, p, p', hload, hload', hn,
    (hruns p p' hload hload' hn).1 ["Foo"] {} {}⟩

end Closure

end StubClosure
