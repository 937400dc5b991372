import StubClosure.Order

/-!
# JSON values

Values without fractions. The fields of an object are kept in the order in which they were given; `Json.sorted` puts them in the order of their keys, at every depth.
-/

namespace StubClosure

inductive Json where
  | null
  | bool (b : Bool)
  | number (n : Int)
  | text (s : String)
  | array (items : List Json)
  | object (fields : List (String × Json))
  deriving Repr, Inhabited

namespace Json

def ofOption {α : Type} (f : α → Json) : Option α → Json
  | none => null
  | some a => f a

def texts (items : List String) : Json := array (items.map text)

mutual

/-- The value with the fields of every object in the order of their keys. -/
def sorted : Json → Json
  | null => null
  | bool b => bool b
  | number n => number n
  | text s => text s
  | array items => array (sortedItems items)
  | object fields => object (sortOn (fun field => field.1) (sortedFields fields))

/-- The items of an array, each sorted. -/
def sortedItems : List Json → List Json
  | [] => []
  | item :: items => item.sorted :: sortedItems items

/-- The fields of an object in their order, each value sorted. -/
def sortedFields : List (String × Json) → List (String × Json)
  | [] => []
  | (key, value) :: fields => (key, value.sorted) :: sortedFields fields

end

end Json

end StubClosure
