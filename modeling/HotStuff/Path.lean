/-!
# Paths of Files

A path is text whose parts are separated by slashes. Its name is the last part, apart from empty
ones and single dots at the end; the extension is what follows the last dot in the name, unless
that dot comes first.
-/

namespace HotStuff

/-- The path of a file or directory. -/
abbrev Path := List Char

namespace Path

/-- The parts between separators; there is one more part than there are separators. -/
def split (separator : Char) : List Char → List (List Char)
  | [] => [[]]
  | c :: rest =>
    if c = separator then [] :: split separator rest
    else
      match split separator rest with
      | [] => [[c]]
      | part :: parts => (c :: part) :: parts

/-- The parts with a separator between them. -/
def join (separator : Char) : List (List Char) → List Char
  | [] => []
  | [part] => part
  | part :: parts => part ++ separator :: join separator parts

/-- The parts in front of the name, last one first, and the name, if the path has one. -/
def name? (p : Path) : Option (List (List Char) × List Char) :=
  match (split '/' p).reverse.dropWhile fun part => part = [] || part = ['.'] with
  | [] => none
  | name :: before => if name = ['.', '.'] then none else some (before, name)

/-- A name without its extension, and the extension, if it has one. -/
def splitExtension (name : List Char) : List Char × Option (List Char) :=
  let after := (name.reverse.takeWhile (· ≠ '.')).reverse
  let stem := name.take (name.length - after.length - 1)
  if stem.isEmpty then (name, none) else (stem, some after)

/-- The extension of a path. -/
def extension? (p : Path) : Option (List Char) := (name? p).bind fun n => (splitExtension n.2).2

/-- A path with another extension. -/
def withExtension (extension : List Char) (p : Path) : Path :=
  match name? p with
  | none => p
  | some (before, name) =>
    join '/' (before.reverse ++ [(splitExtension name).1 ++ '.' :: extension])

/-- A path below a directory. -/
def below (directory name : Path) : Path :=
  if directory.isEmpty || directory.getLast? = some '/' then directory ++ name
  else directory ++ '/' :: name

/-- The directories that a path leads through, the longest first and the path itself included. -/
def ancestors (p : Path) : List Path :=
  let parts := split '/' p
  let longestFirst := (List.range (parts.length + 1)).reverse.map fun n => join '/' (parts.take n)
  longestFirst.filter fun a => !a.isEmpty

end Path

end HotStuff
