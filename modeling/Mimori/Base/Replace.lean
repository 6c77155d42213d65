/-
Replacing a file: the new content is written under another name, which is then renamed. A process may die, or a call may
fail, at any point; a file that has been written half stays under the other name. So the file itself has its old
content or the new one, and no other file has changed.
-/
import Mathlib.Logic.Function.Basic

variable {ν : Type} [DecidableEq ν]

/-- The files of a directory by their names. -/
abbrev Directory (ν : Type) := ν → Option (List UInt8)

namespace Directory

/-- How far a replacement gets: the other file cannot be opened, it has the first `n` bytes of the content, or all of
it and its final name. -/
inductive Progress
  | unopened
  | written (n : Nat)
  | renamed
  deriving DecidableEq

/-- `os.WriteFile`, which empties a file that is there. -/
def writeFile (d : Directory ν) (name : ν) (data : List UInt8) : Directory ν := Function.update d name (some data)

/-- `os.Rename`. -/
def rename (d : Directory ν) (old new : ν) : Directory ν := Function.update (Function.update d new (d old)) old none

def replace (d : Directory ν) (name tmp : ν) (data : List UInt8) : Progress → Directory ν
  | .unopened => d
  | .written n => d.writeFile tmp (data.take n)
  | .renamed => (d.writeFile tmp data).rename tmp name

variable {d : Directory ν} {name tmp other : ν} {data : List UInt8} {p : Progress}

/-- The file has the new content if it came to the rename, and its old content otherwise. -/
theorem replace_name (h : name ≠ tmp) : d.replace name tmp data p name = if p = .renamed then some data else d name := by
  cases p with
  | unopened => rfl
  | written n => exact Function.update_of_ne h _ _
  | renamed =>
    simp only [replace, rename, writeFile, Function.update_of_ne h, Function.update_self, if_true]

theorem replace_other (hn : other ≠ name) (ht : other ≠ tmp) : d.replace name tmp data p other = d other := by
  cases p with
  | unopened => rfl
  | written n => exact Function.update_of_ne ht _ _
  | renamed =>
    simp only [replace, rename, writeFile, Function.update_of_ne ht, Function.update_of_ne hn]

end Directory
