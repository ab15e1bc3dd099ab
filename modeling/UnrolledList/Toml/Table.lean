/-!
# Tables

A document is a tree of tables, and most of what can be wrong with it is that a table is
defined twice. A table comes about in three ways, and they do not mix:

* by a **header**, once;
* by a **dotted key**, as often as the same table goes on by dotted keys;
* in passing, as the parent of one of the others. Such a table is *implicit*, and a header
  may still define it.

An array of tables grows at its end, and only its last table is ever looked at again, so
that is the one that is kept (`UnrolledList.Toml.Node.series`). Of a value only an integer
is kept. Inline tables are values: nothing is added to them later.
-/

namespace UnrolledList

namespace Toml

/-- What stands under a key. -/
inductive Node where
  /-- An integer. -/
  | integer (n : Int)
  /-- Any other value. -/
  | leaf
  /-- A table, with the ways in which it came about. -/
  | table (implicit dotted : Bool) (entries : List (List Char × Node))
  /-- An array of tables, of which this is the last. -/
  | series (last : Node)

namespace Node

/-- A table without entries. -/
def emptyTable (implicit dotted : Bool) : Node :=
  table implicit dotted []

/-- What stands under a key of a table. -/
def find? (name : List Char) : List (List Char × Node) → Option Node
  | [] => none
  | (k, node) :: rest => if k = name then some node else find? name rest

/-- Puts something under a key of a table. What stood there is replaced. -/
def put (name : List Char) (node : Node) : List (List Char × Node) → List (List Char × Node)
  | [] => [(name, node)]
  | (k, old) :: rest => if k = name then (k, node) :: rest else (k, old) :: put name node rest

/-- Changes a table, or the last table of an array. -/
def within (f : Bool → Bool → List (List Char × Node) → Option Node) : Node → Option Node
  | table implicit dotted entries => f implicit dotted entries
  | series (table implicit dotted entries) => (f implicit dotted entries).map series
  | _ => none

/-- Changes the table at the end of a path, making the tables on the way that are not there.
A path that is `dotted` does not lead through tables that were defined by a header. -/
def descend (dottedPath : Bool) (f : Bool → Bool → List (List Char × Node) → Option Node) :
    List (List Char) → Node → Option Node
  | [], node => node.within f
  | name :: path, node =>
    node.within fun implicit dotted entries =>
      let child := (find? name entries).getD (emptyTable true dottedPath)
      let closed := match child with
        | table false _ _ => dottedPath
        | _ => false
      if closed then none
      else (descend dottedPath f path child).map fun child =>
        table implicit dotted (put name child entries)

/-- Adds a value under a new key of the table at the end of a dotted path. A table goes on
only in the way in which it came about: the table that the path ends in has to be dotted if
there is a path, and must not be if there is none. -/
def define (root : Node) (path : List (List Char)) (name : List Char) (value : Node) :
    Option Node :=
  descend true (fun implicit dotted entries =>
    if dotted = path.isEmpty then none
    else if (find? name entries).isSome then none
    else some (table implicit dotted (put name value entries))) path root

/-- Changes the table that a header has opened. -/
def inHeader (root : Node) (header : List (List Char)) (f : Node → Option Node) : Option Node :=
  descend false (fun implicit dotted entries => f (table implicit dotted entries)) header root

/-- Opens the table of a header. It may be there only in passing. -/
def openTable (root : Node) (path : List (List Char)) (name : List Char) : Option Node :=
  descend false (fun implicit dotted entries =>
    match find? name entries with
    | none => some (table implicit dotted (put name (emptyTable false false) entries))
    | some (table true false children) =>
      some (table implicit dotted (put name (table false false children) entries))
    | some _ => none) path root

/-- Adds a table to the array of a header. -/
def openSeries (root : Node) (path : List (List Char)) (name : List Char) : Option Node :=
  descend false (fun implicit dotted entries =>
    match find? name entries with
    | none | some (series _) =>
      some (table implicit dotted (put name (series (emptyTable false false)) entries))
    | some _ => none) path root

/-- What stands under a key of a document. -/
def get? (root : Node) (name : List Char) : Option Node :=
  match root with
  | table _ _ entries => find? name entries
  | _ => none

end Node

end Toml

end UnrolledList
