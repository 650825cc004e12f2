import Playground.Error

namespace Playground

/-- Who asks for a text: a load, by the number of loads of the URL before it, or the pass of a marker
type, for its input file at a place or for its block of a number. -/
inductive Asker
  | load (attempt : Nat)
  | file (marker : String) (place : Nat)
  | block (marker : String) (index : Nat)
  deriving DecidableEq, Repr

/-- Two requests for one URL may be answered differently. -/
structure Fetcher where
  answer : Asker → String → Except FetchError String

def Fetcher.empty : Fetcher := ⟨fun _ url => .error ⟨url, "not found", none⟩⟩

/-- Texts held in memory, the same for everyone who asks. -/
structure Resources where
  contents : List (String × String)
  deriving DecidableEq, Repr

namespace Resources

def empty : Resources := ⟨[]⟩

def insert (r : Resources) (url content : String) : Resources :=
  ⟨(url, content) :: r.contents⟩

def ofList (pairs : List (String × String)) : Resources :=
  pairs.foldl (fun r (url, content) => r.insert url content) empty

def fetch (r : Resources) : Fetcher where
  answer _ url := match r.contents.lookup url with
    | some content => .ok content
    | none => .error ⟨url, "not found", some 404⟩

end Resources

end Playground
