/-
Structured values: what settings are read from and written to, and the form that steps and replies take.
-/

namespace RowFiles

inductive Document where
  | null
  | bool (b : Bool)
  | integer (n : Int)
  /-- a number that is not written as an integer -/
  | fraction
  | text (s : String)
  | list (items : List Document)
  /-- named fields, each name once -/
  | fields (entries : List (String × Document))
deriving Repr, Inhabited

namespace Document

def ofNat (n : Nat) : Document := .integer n

/-- the value of a field -/
def field? (name : String) : Document → Option Document
  | .fields entries => entries.lookup name
  | _ => none

def asBool? : Document → Option Bool
  | .bool b => some b
  | _ => none

def asText? : Document → Option String
  | .text s => some s
  | _ => none

def asList? : Document → Option (List Document)
  | .list items => some items
  | _ => none

def asInt? : Document → Option Int
  | .integer n => some n
  | _ => none

/-- an integer from zero up to a bound, which is left out -/
def asNatBelow? (bound : Nat) : Document → Option Nat
  | .integer (.ofNat n) => if n < bound then some n else none
  | _ => none

def asUInt64? (d : Document) : Option UInt64 := UInt64.ofNat <$> d.asNatBelow? UInt64.size

mutual

/-- how deeply a document is nested -/
def depth : Document → Nat
  | .list items => depthOfList items + 1
  | .fields entries => depthOfFields entries + 1
  | _ => 0

def depthOfList : List Document → Nat
  | [] => 0
  | d :: ds => max d.depth (depthOfList ds)

def depthOfFields : List (String × Document) → Nat
  | [] => 0
  | (_, d) :: ds => max d.depth (depthOfFields ds)

end

mutual

/-- every text in a document, the names of fields aside -/
def texts : Document → List String
  | .text s => [s]
  | .list items => textsOfList items
  | .fields entries => textsOfFields entries
  | _ => []

def textsOfList : List Document → List String
  | [] => []
  | d :: ds => d.texts ++ textsOfList ds

def textsOfFields : List (String × Document) → List String
  | [] => []
  | (_, d) :: ds => d.texts ++ textsOfFields ds

end

end Document

end RowFiles
