import Mathlib.Data.Nat.Notation
import Mathlib.Logic.Function.Basic

set_option autoImplicit false

/-!
# Routes of `libs/yukino_http`

The routes of an application are kept in one trie for each method, whose nodes are the segments of
the patterns.

## Main definitions

* `parsePattern` — the segments of a pattern or a path.
* `Node`, `Node.insert`, `Node.search` — the trie.
* `Routes`, `Routes.addRoute`, `Routes.getRoute` — the type
  `router`.

## Design

A string is the list of its bytes, which are written as characters; the code compares them and looks
for a slash, a colon and a star. A handler is its number among all registrations.
-/

namespace Yukino.Http

abbrev Str := List Char

/-- The loop of `parsePattern` over the pieces between slashes. -/
def parseParts : List Str → List Str
  | [] => []
  | item :: items =>
    if item = [] then parseParts items
    else if item.head? = some '*' then [item]
    else item :: parseParts items

def parsePattern (pattern : Str) : List Str :=
  parseParts (pattern.splitOn '/')

/-! ## The trie -/

/-- A node of the trie; it is the end of a route if its pattern is not empty. -/
inductive Node
  | mk (pattern part : Str) (children : List Node) (isWild : Bool)

namespace Node

def pattern : Node → Str
  | mk pattern _ _ _ => pattern

def part : Node → Str
  | mk _ part _ _ => part

def children : Node → List Node
  | mk _ _ children _ => children

def isWild : Node → Bool
  | mk _ _ _ isWild => isWild

/-- The node without a part. -/
def empty : Node :=
  mk [] [] [] false

/-- A new child for a part. -/
def ofPart (part : Str) : Node :=
  mk [] part [] (part.head? = some ':' || part.head? = some '*')

/-- `matchChild` and what `insert` does with its result: the first child with the part is changed,
or a new one is added at the end. -/
def modifyChild (part : Str) (f : Node → Node) : List Node → List Node
  | [] => [f (ofPart part)]
  | child :: children =>
    if child.part = part then f child :: children else child :: modifyChild part f children

def insert (pattern : Str) : List Str → Node → Node
  | [], mk _ part children isWild => mk pattern part children isWild
  | part :: parts, mk pattern' part' children isWild =>
    mk pattern' part' (modifyChild part (insert pattern parts) children) isWild

def matchChildren (n : Node) (part : Str) : List Node :=
  (n.children.filter fun child => child.part = part) ++
    n.children.filter fun child => child.part ≠ part && child.isWild

/-- The node itself, if it is the end of a route. -/
def self (n : Node) : Option Node :=
  if n.pattern = [] then none else some n

def search : List Str → Node → Option Node
  | [], n => n.self
  | part :: parts, n =>
    if n.part.head? = some '*' then n.self
    else (n.matchChildren part).findSome? (search parts)

end Node

/-! ## Routes -/

/-- The type `router`. -/
structure Routes where
  roots : Str → Option Node := fun _ => none
  handlers : Str → Option ℕ := fun _ => none

namespace Routes

def key (method pattern : Str) : Str :=
  method ++ '-' :: pattern

def addRoute (r : Routes) (method pattern : Str) (handler : ℕ) : Routes :=
  let parts := parsePattern pattern
  let pattern := '/' :: ['/'].intercalate parts
  { roots := Function.update r.roots method
      (some (((r.roots method).getD Node.empty).insert pattern parts))
    handlers := Function.update r.handlers (key method pattern) (some handler) }

/-- The loop of `getRoute` over the parts of the pattern: the parameters in the order in which they
are set, so that a later one of the same name counts. -/
def params : List Str → List Str → List (Str × Str)
  | part :: parts, searchPart :: searchParts =>
    if part.head? = some ':' then (part.tail, searchPart) :: params parts searchParts
    else if part.head? = some '*' && 1 < part.length then
      [(part.tail, ['/'].intercalate (searchPart :: searchParts))]
    else params parts searchParts
  | _, _ => []

/-- The node of the route, and the parameters. -/
def getRoute (r : Routes) (method path : Str) : Option (Node × List (Str × Str)) :=
  let searchParts := parsePattern path
  match r.roots method with
  | none => none
  | some root =>
    (root.search searchParts).map fun n => (n, params (parsePattern n.pattern) searchParts)

end Routes

end Yukino.Http
