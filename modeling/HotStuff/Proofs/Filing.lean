import HotStuff.Node.Config
import HotStuff.Proofs.Documents
import HotStuff.Store.File

/-!
# States in a File

A file store writes a state to a scratch file, which then takes the place of the file that is
loaded. Little is expected of the medium for this: if writing fails, the scratch file may hold
anything or be gone, and nothing else is touched; if the move fails, it has not happened. The
scratch file is another one than the target, since it differs in the extension, so the target always
holds the last state that was saved, whatever an earlier attempt has left beside it.

Nothing is kept in a store between two calls, so it does not matter whether a store stays open or
another one is opened on its path. In both cases it answers like a memory store that is given the
successful saves only.

## Main definitions

* `FileStore.Saves`: how an attempt to save may go.
* `FileStore.Kept`: what is asked of the stores on a path, and what they answer.
* `MemoryStore.follow`: a memory store that is given the saves that succeeded.

## Main results

* `SavedState.readsBack`: a state comes back from its written form.
* `FileStore.scratch_ne_path`: the scratch file is not the target.
* `FileStore.exists_save`: saving succeeds unless a directory is in the way.
* `file_store_refines_memory_store`: the stores on a path answer like a memory store.
-/

namespace HotStuff

/-! ### The written form of a state -/

namespace SavedState

/-- The keys of those who sealed a certificate in a state are points of the curve. -/
def SignedByPoints (state : SavedState) : Prop :=
  ∀ cert, state.prepared = some cert ∨ state.locked = some cert →
    ∀ s ∈ cert.seals, s.signer.isPoint

/-- **A state comes back** from its written form if its signers are points. -/
theorem readsBack {state : SavedState} (h : state.SignedByPoints) : ReadsBack state := by
  have hview := View.readsBack state.view
  have hprepared : ReadsBack state.prepared :=
    .option (fun cert hcert => Certificate.readsBack (h cert (Or.inl hcert))) fun _ _ => rfl
  have hlocked : ReadsBack state.locked :=
    .option (fun cert hcert => Certificate.readsBack (h cert (Or.inr hcert))) fun _ _ => rfl
  have hcommitted := state.committed.readsBack
  have hheight := View.readsBack state.height
  have hnames : Record.Distinct ["view", "prepare_qc", "locked_qc", "committed", "height"] :=
    ⟨by decide, by decide⟩
  refine .of_record rfl hnames ?_ fun r hr hholds => ?_
  · simp [hview.plain, hprepared.plain, hlocked.plain, hcommitted.plain, hheight.plain]
  · refine Option.bind_eq_some_iff.mpr ⟨r, hr, ?_⟩
    rw [hholds.required (by simp) hview.read, hholds.optional (by simp) hprepared.read,
      hholds.optional (by simp) hlocked.read, hholds.required (by simp) hcommitted.read,
      hholds.required (by simp) hheight.read]
    rfl

end SavedState

/-! ### Paths -/

namespace Path

/-- The part of a path behind its last separator ends like the path. -/
theorem split_append {separator : Char} {tail : List Char} (htail : separator ∉ tail)
    (p : List Char) : ∃ before stem, split separator (p ++ tail) = before ++ [stem ++ tail] := by
  induction p with
  | nil =>
      refine ⟨[], [], ?_⟩
      induction tail with
      | nil => rfl
      | cons c tail ih =>
          obtain ⟨hc, hrest⟩ := not_or.mp (mt List.mem_cons.mpr htail)
          have hsplit : split separator tail = [tail] := ih hrest
          simp [split, Ne.symm hc, hsplit]
  | cons c p ih =>
      obtain ⟨before, stem, hsplit⟩ := ih
      rw [List.cons_append, split, hsplit]
      split
      · exact ⟨[] :: before, stem, rfl⟩
      · cases before with
        | nil => exact ⟨[], c :: stem, rfl⟩
        | cons part before => exact ⟨(c :: part) :: before, stem, rfl⟩

/-- Parts that are joined end like the last one. -/
theorem suffix_join (separator : Char) (parts : List (List Char)) (last : List Char) :
    last <:+ join separator (parts ++ [last]) := by
  induction parts with
  | nil => exact List.suffix_refl last
  | cons part parts ih =>
      obtain ⟨next, rest, hrest⟩ := List.exists_cons_of_ne_nil
        (show parts ++ [last] ≠ [] from List.append_ne_nil_of_right_ne_nil _ (List.cons_ne_nil _ _))
      rw [List.cons_append, hrest, join, ← hrest]
      · exact ih.trans ((List.suffix_cons _ _).trans (List.suffix_append _ _))
      · rintro ⟨⟩

/-- A path that ends in an extension has a name. -/
theorem exists_name? {p extension : List Char} (hdot : '.' :: extension <:+ p)
    (hslash : '/' ∉ extension) (hlast : ∀ c, extension.getLast? = some c → c ≠ '.')
    (hne : extension ≠ []) : ∃ before name, name? p = some (before, name) := by
  obtain ⟨front, rfl⟩ := hdot
  have htail : '/' ∉ '.' :: extension := by simp [hslash]
  obtain ⟨before, stem, hsplit⟩ := split_append htail front
  obtain ⟨c, hc⟩ := Option.isSome_iff_exists.mp (List.getLast?_isSome.mpr hne)
  have hname : (stem ++ '.' :: extension).getLast? = some c := by
    rw [List.getLast?_append, List.getLast?_cons_of_ne_nil hne, hc]
    rfl
  have hdots : ∀ n, stem ++ '.' :: extension ≠ List.replicate n '.' := by
    intro n heq
    have hmem : c ∈ List.replicate n '.' := heq ▸ List.mem_of_getLast? hname
    exact hlast c hc (List.eq_of_mem_replicate hmem)
  refine ⟨before.reverse, stem ++ '.' :: extension, ?_⟩
  have hkept : ¬ (stem ++ '.' :: extension = [] ∨ stem ++ '.' :: extension = ['.']) :=
    not_or.mpr ⟨hdots 0, hdots 1⟩
  rw [name?, hsplit, List.reverse_append, List.reverse_singleton, List.singleton_append,
    List.dropWhile_cons_of_neg (by simpa using hkept)]
  exact if_neg (hdots 2)

/-- A path with another extension ends in that. -/
theorem suffix_withExtension {p : Path} {before : List (List Char)} {name : List Char}
    (hname : name? p = some (before, name)) (extension : List Char) :
    '.' :: extension <:+ p.withExtension extension := by
  rw [withExtension, hname]
  exact (List.suffix_append _ _).trans (suffix_join _ _ _)

end Path

/-! ### Files -/

namespace Disk

variable {d d' : Disk} {p q : Path} {written : Bytes}

/-- A file that was written holds what was written to it. -/
theorem get?_of_write (h : d.write p written = .ok d') :
    d'.entries.get? p = some (.file written) := by
  rw [write] at h
  split at h
  · cases h
  · obtain rfl := Except.ok.inj h
    simp [putFile]

/-- Writing a file touches no other one. -/
theorem get?_of_write_of_ne (h : d.write p written = .ok d') (hne : q ≠ p) :
    d'.entries.get? q = d.entries.get? q := by
  rw [write] at h
  split at h
  · cases h
  · obtain rfl := Except.ok.inj h
    simp [putFile, hne]

/-- What is moved is found under its new path. -/
theorem get?_of_rename (h : d.rename p q = .ok d') : d'.entries.get? q = d.entries.get? p := by
  rw [rename] at h
  split at h
  · cases h
  · cases h
  · next entry hentry _ =>
      obtain rfl := Except.ok.inj h
      simp [hentry]

/-- A file is written unless a directory is in its place. -/
theorem exists_write (written : Bytes) (hfree : d.entries.get? p ≠ some .directory) :
    ∃ d', d.write p written = .ok d' := by
  rw [write]
  split
  · next hdirectory => exact absurd hdirectory hfree
  · exact ⟨_, rfl⟩

/-- A file is moved unless a directory is in the place that it is moved to. -/
theorem exists_rename (hfile : d.entries.get? p = some (.file written))
    (hfree : d.entries.get? q ≠ some .directory) : ∃ d', d.rename p q = .ok d' := by
  rw [rename, hfile]
  cases htarget : d.entries.get? q with
  | none => exact ⟨_, rfl⟩
  | some entry =>
      cases entry with
      | file => exact ⟨_, rfl⟩
      | directory => exact absurd htarget hfree

end Disk

/-! ### Stores -/

namespace FileStore

variable {store store' : FileStore} {path : Path} {disk disk' last : Disk} {state : SavedState}
  {memory : MemoryStore}

/-- **The scratch file is not the target** of a store on a path that ends in `.json`. -/
theorem scratch_ne_path (hjson : ".json".toList <:+ store.path) : store.scratch ≠ store.path := by
  have hextension : '.' :: "json".toList <:+ store.path := hjson
  have hlast (c : Char) (hc : "json".toList.getLast? = some c) : c ≠ '.' := by
    obtain rfl : 'n' = c := Option.some.inj hc
    decide
  obtain ⟨before, name, hname⟩ := Path.exists_name? hextension (by decide) hlast (by decide)
  have htmp : ".tmp".toList <:+ store.scratch := Path.suffix_withExtension hname _
  obtain ⟨front, hpath⟩ := hjson
  obtain ⟨front', hscratch⟩ := htmp
  intro heq
  have hlast : (front ++ ".json".toList).getLast? = (front' ++ ".tmp".toList).getLast? := by
    rw [hpath, hscratch, heq]
  simp at hlast

/-- Only what is found under the path matters to a load. -/
theorem load_congr (hsame : disk'.entries.get? path = disk.entries.get? path) :
    load ⟨path, disk'⟩ = load ⟨path, disk⟩ := by
  simp only [load, Disk.read, hsame]

/-- **A written state is loaded.** -/
theorem load_of_content (hpoints : state.SignedByPoints)
    (hfile : disk.entries.get? path = some (.file (content state))) :
    load ⟨path, disk⟩ = .ok (some state) := by
  have hback := SavedState.readsBack hpoints
  have hread : readJson? (content state) = some state := by
    rw [readJson?, content, Json.parse_of_spells (Json.spells_indented hback.plain 0)]
    exact hback.read
  simp only [load, Disk.read, hfile, hread]

/-- A save that succeeds has written the scratch file and moved it. -/
theorem save_eq_ok (h : StateStore.save store state = (.ok (), store')) :
    ∃ written, store.disk.write store.scratch (content state) = .ok written ∧
      written.rename store.scratch store.path = .ok store'.disk := by
  have hsave : store.saveUnder none state = (.ok (), store') := h
  simp only [saveUnder, replace] at hsave
  split at hsave
  · cases hsave
  · next written hwrite =>
      split at hsave
      · next moved hmove =>
          obtain ⟨-, rfl⟩ := Prod.mk.inj hsave
          exact ⟨written, hwrite, hmove⟩
      · cases hsave

/-- **Saving succeeds** unless a directory is in the place of one of the two files. -/
theorem exists_save (hne : store.scratch ≠ store.path)
    (hscratch : store.disk.entries.get? store.scratch ≠ some .directory)
    (htarget : store.disk.entries.get? store.path ≠ some .directory) :
    (StateStore.save store state).1 = .ok () := by
  obtain ⟨written, hwrite⟩ := Disk.exists_write (content state) hscratch
  have hfree : written.entries.get? store.path ≠ some .directory := by
    rwa [Disk.get?_of_write_of_ne hwrite hne.symm]
  obtain ⟨moved, hmove⟩ := Disk.exists_rename (Disk.get?_of_write hwrite) hfree
  have hsave : StateStore.save store state = store.saveUnder none state := rfl
  simp only [hsave, saveUnder, hwrite, replace, hmove]

/-! ### Attempts to save -/

/-- **How an attempt to save may go**, with what it answers and the disk that it leaves. -/
inductive Saves (store : FileStore) (state : SavedState) : Except Error Unit → Disk → Prop
  | saved {saved : FileStore} (h : StateStore.save store state = (.ok (), saved)) :
      Saves store state (.ok ()) saved.disk
  /-- Writing fails. What is left of it is in the scratch file, or that is gone. -/
  | unwritten {cause : Error} {left : Disk}
      (hothers : ∀ p, p ≠ store.scratch → left.entries.get? p = store.disk.entries.get? p) :
      Saves store state (.error cause) left
  /-- The scratch file is written, and the move fails. -/
  | unmoved {cause : Error} {left : Disk}
      (hwrite : store.disk.write store.scratch (content state) = .ok left) :
      Saves store state (.error cause) left

/-- **An attempt that fails** touches nothing but the scratch file. -/
theorem Saves.get?_of_error {cause : Error} (h : Saves store state (.error cause) disk)
    {p : Path} (hne : p ≠ store.scratch) :
    disk.entries.get? p = store.disk.entries.get? p := by
  cases h with
  | unwritten hothers => exact hothers p hne
  | unmoved hwrite => exact Disk.get?_of_write_of_ne hwrite hne

/-- **An attempt that succeeds** leaves the written state under the path. -/
theorem Saves.get?_of_ok (h : Saves store state (.ok ()) disk) :
    disk.entries.get? store.path = some (.file (content state)) := by
  cases h with
  | saved h =>
      obtain ⟨written, hwrite, hmove⟩ := save_eq_ok h
      rw [Disk.get?_of_rename hmove, Disk.get?_of_write hwrite]

/-- A medium that fails at a given point makes one of these attempts. -/
theorem saves_saveUnder (store : FileStore) (fault : Option SaveFault) (state : SavedState) :
    Saves store state (store.saveUnder fault state).1 (store.saveUnder fault state).2.disk := by
  simp only [saveUnder]
  split
  · exact .unwritten fun _ _ => rfl
  · next written hwrite =>
      rcases fault with _ | left | _
      · simp only [replace]
        split
        · next moved hmove =>
            have hsave : StateStore.save store state = store.saveUnder none state := rfl
            simp only [saveUnder, hwrite, replace, hmove] at hsave
            exact .saved hsave
        · exact .unmoved hwrite
      · exact .unwritten fun _ hne => Disk.get?_of_write_of_ne hwrite hne
      · exact .unmoved hwrite

/-! ### What is asked of stores -/

/-- What is asked of a store, and what it answers. -/
inductive Asked where
  | save (state : SavedState) (answer : Except Error Unit)
  | load (answer : Except Error (Option SavedState))

/-- **The stores on a path**, one after the other or one that stays open, from one disk to another.
Anything may happen to the rest of the disk in between. -/
inductive Kept (path : Path) (last : Disk) : Disk → List Asked → Prop
  | done : Kept path last last []
  | save {first next : Disk} {state : SavedState} {answer : Except Error Unit} {rest : List Asked}
      (hsaves : Saves ⟨path, first⟩ state answer next) (hrest : Kept path last next rest) :
      Kept path last first (.save state answer :: rest)
  | load {first : Disk} {rest : List Asked} (hrest : Kept path last first rest) :
      Kept path last first (.load (StateStore.load (FileStore.mk path first)) :: rest)
  | elsewhere {first next : Disk} {rest : List Asked}
      (hsame : next.entries.get? path = first.entries.get? path)
      (hrest : Kept path last next rest) : Kept path last first rest

end FileStore

/-- What a memory store holds that was given the saves that succeeded. -/
def MemoryStore.follow (store : MemoryStore) : List FileStore.Asked → MemoryStore
  | [] => store
  | .save state (.ok ()) :: rest => follow (StateStore.save store state).2 rest
  | .save _ (.error _) :: rest => store.follow rest
  | .load _ :: rest => store.follow rest

/-- The file for a member's state has a path that ends in `.json`. -/
theorem NodeConfig.json_suffix_statePath {config : NodeConfig} {m : MemberId} {path : Path}
    (h : config.statePath? m = some path) : ".json".toList <:+ path := by
  obtain ⟨directory, -, rfl⟩ := Option.map_eq_some_iff.mp h
  have hname : ".json".toList <:+ (m.hex ++ ".json").toList :=
    ⟨m.hex.toList, String.toList_append.symm⟩
  rw [Path.below]
  split
  · exact hname.trans (List.suffix_append _ _)
  · exact hname.trans ((List.suffix_cons _ _).trans (List.suffix_append _ _))

namespace FileStore

variable {path : Path} {first last left : Disk} {state : SavedState} {memory : MemoryStore}
  {asked : List Asked} {answer : Except Error Unit}

/-- **An attempt that fails** leaves what was there before to be loaded. -/
theorem Saves.load_of_error {cause : Error} (hjson : ".json".toList <:+ path)
    (h : Saves ⟨path, first⟩ state (.error cause) left) :
    StateStore.load (FileStore.mk path left) = StateStore.load (FileStore.mk path first) := by
  have hne : (FileStore.mk path first).scratch ≠ path := scratch_ne_path hjson
  exact load_congr (h.get?_of_error hne.symm)

/-- **One attempt** keeps a file store and a memory store together. -/
theorem Saves.load_follow (hjson : ".json".toList <:+ path)
    (h : Saves ⟨path, first⟩ state answer left) (hpoints : answer = .ok () → state.SignedByPoints)
    (hload : StateStore.load (FileStore.mk path first) = StateStore.load memory) :
    StateStore.load (FileStore.mk path left) =
      StateStore.load (memory.follow [.save state answer]) := by
  cases answer with
  | error cause => exact (h.load_of_error hjson).trans hload
  | ok => exact load_of_content (hpoints rfl) h.get?_of_ok

end FileStore

/-- A memory store follows what is asked of it one by one. -/
theorem MemoryStore.follow_cons (memory : MemoryStore) (one : FileStore.Asked)
    (rest : List FileStore.Asked) :
    memory.follow (one :: rest) = (memory.follow [one]).follow rest := by
  rcases one with ⟨_, _ | _⟩ | _ <;> rfl

open FileStore in
/-- **The stores on a path answer like a memory store** that is given the saves that succeeded, if
they begin alike. Whatever is asked and whichever attempts fail, every load returns what the memory
store returns at that point; and an attempt that fails leaves the state from before to be loaded. -/
theorem file_store_refines_memory_store {path : Path} (hjson : ".json".toList <:+ path)
    {first last : Disk} {memory : MemoryStore} {asked : List Asked}
    (hload : StateStore.load (FileStore.mk path first) = StateStore.load memory)
    (hkept : Kept path last first asked)
    (hpoints : ∀ state, .save state (.ok ()) ∈ asked → state.SignedByPoints) :
    (∀ before answer after, asked = before ++ .load answer :: after →
      answer = StateStore.load (memory.follow before)) ∧
    StateStore.load (FileStore.mk path last) = StateStore.load (memory.follow asked) ∧
    ∀ disk state cause left, Saves ⟨path, disk⟩ state (.error cause) left →
      StateStore.load (FileStore.mk path left) = StateStore.load (FileStore.mk path disk) := by
  rw [← and_assoc]
  refine ⟨?_, fun disk state cause left h => h.load_of_error hjson⟩
  induction hkept generalizing memory with
  | done =>
      refine ⟨?_, hload⟩
      rintro (_ | _) _ _ ⟨⟩
  | @save first next state answer rest hsaves hrest ih =>
      have hone : answer = .ok () → state.SignedByPoints := by
        rintro rfl
        exact hpoints state List.mem_cons_self
      obtain ⟨hloads, hlast⟩ := ih (hsaves.load_follow hjson hone hload) fun s hs =>
        hpoints s (List.mem_cons_of_mem _ hs)
      refine ⟨?_, memory.follow_cons _ _ ▸ hlast⟩
      rintro (_ | ⟨one, before⟩) loaded after h
      · cases h
      · obtain ⟨rfl, hrest⟩ := List.cons.inj h
        exact memory.follow_cons _ _ ▸ hloads before loaded after hrest
  | @load first rest hrest ih =>
      obtain ⟨hloads, hlast⟩ := ih hload fun s hs => hpoints s (List.mem_cons_of_mem _ hs)
      refine ⟨?_, hlast⟩
      rintro (_ | ⟨one, before⟩) loaded after h
      · obtain ⟨h, -⟩ := List.cons.inj h
        exact (Asked.load.inj h).symm.trans hload
      · obtain ⟨rfl, hrest⟩ := List.cons.inj h
        exact hloads before loaded after hrest
  | elsewhere hsame hrest ih => exact ih ((load_congr hsame).trans hload) hpoints

namespace Reopening

/-- The neutral element of the curve as a key. -/
def key : MemberId := ⟨Bytes.toVector 32 (1 :: List.replicate 31 0)⟩

/-- A member with that key keeps its states in a directory. -/
def config : NodeConfig :=
  { network := "tessera", keys := [], dataDir := some "data".toList,
    consensus := { members := [key] } }

def target : Path := "data/".toList ++ (key.hex ++ ".json").toList

/-- A state after some views. -/
def progress (view : View) : SavedState :=
  ⟨view, some ⟨⟨.prepare, view, ⟨⟨[0xAB]⟩, [0xCD, 0xEF]⟩⟩, [⟨key, default⟩]⟩, none, ⟨[]⟩, view⟩

/-- The disk after an attempt to save in a store that is opened for it. -/
def after (fault : Option SaveFault) (view : View) (disk : Disk) : Disk :=
  ((FileStore.mk target disk).saveUnder fault (progress view)).2.disk

/-- A scratch file is left from earlier. -/
def first : Disk := Disk.empty.putFile (FileStore.mk target .empty).scratch [0x7B]

def saved : Disk := after none 1 first

/-- Writing breaks off in the middle. -/
def torn : Disk := after (some (.writing [0x7B, 0x22])) 2 saved

/-- What is written stays under the other path. -/
def unmoved : Disk := after (some .renaming) 3 torn

end Reopening

open FileStore Reopening in
/-- A state is found by every store that is opened on its path after that, though a scratch file is
in the way at first, and though writing the second state and moving the third one fails. -/
theorem file_store_refines_memory_store_reopened :
    config.statePath? key = some target ∧
    StateStore.load (FileStore.mk target first) = .ok none ∧
    StateStore.load (FileStore.mk target torn) = .ok (some (progress 1)) ∧
    StateStore.load (FileStore.mk target unmoved) = .ok (some (progress 1)) ∧
    StateStore.load (FileStore.mk target (after none 4 unmoved)) = .ok (some (progress 4)) := by
  have hpath : config.statePath? key = some target := by decide +kernel
  have hfirst : StateStore.load (FileStore.mk target first) = .ok none := by decide +kernel
  have hsaves (fault view disk) : Saves ⟨target, disk⟩ (progress view)
      (saveUnder ⟨target, disk⟩ fault (progress view)).1 (after fault view disk) :=
    saves_saveUnder _ fault (progress view)
  have hsaved : Saves ⟨target, first⟩ (progress 1) (.ok ()) saved := hsaves none 1 first
  have htorn : Saves ⟨target, saved⟩ (progress 2) (.error .medium) torn := hsaves (some _) 2 saved
  have hunmoved : Saves ⟨target, torn⟩ (progress 3) (.error .medium) unmoved :=
    hsaves (some _) 3 torn
  have hlast : Saves ⟨target, unmoved⟩ (progress 4) (.ok ()) (after none 4 unmoved) :=
    hsaves none 4 unmoved
  have hpoints (view) : (progress view).SignedByPoints := by
    rintro cert (h | h) s hs
    · obtain rfl := Option.some.inj h
      obtain rfl := List.mem_singleton.mp hs
      decide +kernel
    · cases h
  have hkept := Kept.load (Kept.save hsaved (Kept.save htorn (Kept.load (Kept.save hunmoved
    (Kept.load (Kept.save hlast Kept.done))))))
  have hempty : StateStore.load (FileStore.mk target first) = StateStore.load ({} : MemoryStore) :=
    hfirst
  obtain ⟨hloads, hend, -⟩ := file_store_refines_memory_store
    (NodeConfig.json_suffix_statePath hpath) hempty hkept (by simp [hpoints])
  exact ⟨hpath, hloads [] _ _ rfl, hloads [_, _, _] _ _ rfl, hloads [_, _, _, _, _] _ _ rfl, hend⟩

end HotStuff
