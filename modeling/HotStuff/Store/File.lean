import HotStuff.Disk
import HotStuff.Wire.Saved

/-!
# Saved State in a File

The state is written as indented JSON to a temporary file, which then takes the place of the one
before. So whatever fails on the way, the last state that was saved is still there to be loaded.

## Main definitions

* `FileStore`: the store.
* `FileStore.saveUnder`: saving where the medium may fail at a given point.
-/

namespace HotStuff

/-- A store in the file under a path. -/
structure FileStore where
  path : Path
  disk : Disk

/-- Where the medium fails while a state is saved. -/
inductive SaveFault where
  /-- While the temporary file is written, which is left with some content. -/
  | writing (left : Bytes)
  /-- When the temporary file should take the place of the other. -/
  | renaming
  deriving DecidableEq, Repr

namespace FileStore

variable (store : FileStore)

/-- The path of the temporary file. -/
def scratch : Path := store.path.withExtension ['t', 'm', 'p']

/-- The content of the file for a state. -/
def content (state : SavedState) : Bytes := (toJson state).indented 0

/-- The state in the file. There is none if there is no file. -/
def load : Except Error (Option SavedState) :=
  match store.disk.read store.path with
  | .error .notFound => .ok none
  | .error .refused => .error .medium
  | .ok content =>
    match readJson? content with
    | some state => .ok (some state)
    | none => .error .unreadableState

/-- Puts the temporary file in the place of the other. -/
def replace (disk : Disk) : Except Error Unit × FileStore :=
  match disk.rename store.scratch store.path with
  | .ok disk' => (.ok (), { store with disk := disk' })
  | .error _ => (.error .medium, { store with disk })

/-- **Saving.** Writes the temporary file and puts it in the place of the other, where the medium
may fail at a given point. -/
def saveUnder (fault : Option SaveFault) (state : SavedState) : Except Error Unit × FileStore :=
  let written := match fault with
    | some (.writing left) => left
    | _ => content state
  match store.disk.write store.scratch written with
  | .error _ => (.error .medium, store)
  | .ok disk =>
    match fault with
    | some _ => (.error .medium, { store with disk })
    | none => store.replace disk

instance : StateStore FileStore where
  load := load
  save store := store.saveUnder none

end FileStore

end HotStuff
