import SolVendor.FileSystem.Basic
/-!
# FileSystem — positions

A walk on its way, and a process with its working directory, stand at a
position. Most positions are places. But a directory may be removed while
a process stands in it, and the process stands in it still: it is a
directory with nothing in it, in which nothing can be made, and it keeps
its way up. A directory that is made at the same place later is another
one.

So a position is the nearest place that still stands, and the number of
removed directories between it and the position. `settle` says where a
position is left when the files have changed: it stands on a directory
again (`standing_settle`), and on the same one if that is still there
(`settle_eq_self`).
-/

namespace SolVendor

/-- A place, or so many levels below it in directories that have been removed. -/
structure Position where
  place : Location
  lost : Nat
deriving DecidableEq, Repr

namespace Position

/-- The position at a place that stands. -/
def ofPlace (loc : Location) : Position := ⟨loc, 0⟩

/-- One level up. Nothing is above the root but the root. -/
def up : Position → Position
  | ⟨loc, 0⟩ => ⟨loc.dropLast, 0⟩
  | ⟨loc, lost + 1⟩ => ⟨loc, lost⟩

end Position

namespace FileSystem

/-- What is found at a position. A removed directory is a directory. -/
def standing (fs : FileSystem) (pos : Position) : Option Entry :=
  if pos.lost = 0 then fs.get? pos.place else some .dir

/-- The directory at a place, or else the nearest one above it. -/
def nearestDir (fs : FileSystem) (loc : Location) : Location :=
  ((loc :: loc.above.reverse).find? fun l => fs.get? l = some .dir).getD []

/-- A position after a change that has led to these files. The directories on the way down to it
that have gone are lost. -/
def settle (fs : FileSystem) (pos : Position) : Position :=
  let dir := fs.nearestDir pos.place
  ⟨dir, pos.lost + (pos.place.length - dir.length)⟩

/-- The nearest directory is a directory. -/
theorem get?_nearestDir (fs : FileSystem) (loc : Location) :
    fs.get? (fs.nearestDir loc) = some .dir := by
  unfold nearestDir
  cases h : (loc :: loc.above.reverse).find? fun l => fs.get? l = some .dir with
  | none => rfl
  | some l => simpa using List.find?_some h

/-- A position stays as it is if its directory does. -/
theorem settle_eq_self {fs : FileSystem} {pos : Position}
    (h : fs.get? pos.place = some .dir) : fs.settle pos = pos := by
  simp [settle, nearestDir, h]

/-- A position that has settled stands on a directory. -/
theorem standing_settle (fs : FileSystem) (pos : Position) :
    fs.standing (fs.settle pos) = some .dir := by
  unfold standing
  split
  · exact fs.get?_nearestDir pos.place
  · rfl

end FileSystem

end SolVendor
