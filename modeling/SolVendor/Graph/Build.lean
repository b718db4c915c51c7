import SolVendor.Graph.Basic
import SolVendor.Import.Source
/-!
# Graph — building

A graph is built in two passes. The first gives every file a number, under
the normal form of its path; a file whose path is taken already is left
out. The second opens the files in the order of their numbers, finds what
they import, and turns each request that leads to a node into an edge; a
request that leads to none is dropped. The first file that cannot be read
ends the second pass.
-/

namespace SolVendor

/-- What opening a file gives: bytes, and the failure that comes instead of their end, if any. -/
structure Reader where
  bytes : List UInt8
  failure : Option Failure
deriving DecidableEq, Repr

namespace Reader

/-- The imports of an opened file; reading must reach the end. -/
def specifiers (r : Reader) (file : Path) : Except Failure (List Import.Specifier) :=
  match r.failure with
  | none => .ok (Import.specifiers r.bytes)
  | some cause => .error (.during (.readFile file) cause)

end Reader

/-- How the file of a node is opened. -/
abbrev Opener := Path → Except Failure Reader

namespace ImportGraph

/-- Give a file the next number, unless its path is taken. -/
def add (g : ImportGraph) (file : DiscoveredFile) : ImportGraph :=
  let path := file.path.normalize
  if g.index.contains path then g
  else ⟨g.nodes.push ⟨file.name, path, []⟩, g.index.insert path g.size⟩

/-- The graph of the files, without edges. -/
def ofFiles (files : List DiscoveredFile) : ImportGraph :=
  files.foldl add empty

/-- The nodes that the specifiers of a file lead to. -/
def targets (g : ImportGraph) (file : Path) (specs : List Import.Specifier) : List NodeId :=
  specs.filterMap fun spec => g.index[Import.resolve file spec.request]?

/-- Replace the edges of a node. -/
def setDeps (g : ImportGraph) (id : NodeId) (deps : List NodeId) : ImportGraph :=
  { g with nodes := g.nodes.modify id fun node => { node with deps } }

/-- Read the imports of one node. -/
def scanNode (opener : Opener) (g : ImportGraph) (id : NodeId) : Except Failure ImportGraph :=
  match g.node? id with
  | none => .ok g
  | some node => do
    let reader ← opener node.path
    let specs ← reader.specifiers node.path
    return g.setDeps id (g.targets node.path specs)

/-- The import graph of the files. -/
def build (files : List DiscoveredFile) (opener : Opener) : Except Failure ImportGraph :=
  let g := ofFiles files
  (List.range g.size).foldlM (scanNode opener) g

end ImportGraph

end SolVendor
