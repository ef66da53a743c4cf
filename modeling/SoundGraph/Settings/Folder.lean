import SoundGraph.Settings.Format

/-! Files in folders, and settings kept in them. Paths start from the home folder; every part of a path
but the last must be a folder, and an empty part or a dot at the end asks for a folder too. Names and
paths have a greatest length, counted in bytes. Saving makes the folders that the path needs before
anything is written. -/

namespace SoundGraph

/-- The names from the outermost folder down. -/
abbrev Location := List String

/-- A name that no part of a path can spell. -/
def homeName : String := "/"

/-- Where paths start, one folder below the outermost. -/
def home : Location := [homeName]

/-- What a name in a folder stands for. -/
inductive FolderItem where
  | file (bytes : List UInt8)
  | folder (items : List (String × FolderItem))

namespace FolderItem

def isFolder : FolderItem → Bool
  | folder _ => true
  | file _ => false

def bytes? : FolderItem → Option (List UInt8)
  | file bytes => some bytes
  | folder _ => none

def at? : Location → FolderItem → Option FolderItem
  | [], item => some item
  | name :: rest, folder items => (items.lookup name).bind (at? rest)
  | _ :: _, file _ => none

end FolderItem

/-- The outermost folder. -/
structure Folder where
  items : List (String × FolderItem) := [(homeName, .folder [])]

namespace Folder

def item? (f : Folder) (l : Location) : Option FolderItem := (FolderItem.folder f.items).at? l

def isFolder (f : Folder) (l : Location) : Bool := (f.item? l).any FolderItem.isFolder

def putIn (new : FolderItem) : Location → List (String × FolderItem) → List (String × FolderItem)
  | [], items => items
  | [name], items => (name, new) :: items.filter (·.1 ≠ name)
  | name :: rest, items =>
    match items.lookup name with
    | some (.folder inner) =>
      (name, .folder (putIn new rest inner)) :: items.filter (·.1 ≠ name)
    | _ => items

/-- Puts an item, new or not, into a folder that exists. -/
def put (f : Folder) (l : Location) (new : FolderItem) : Folder := ⟨putIn new l f.items⟩

def nameLimit : Nat := 255

def pathLimit : Nat := 4095

/-- Whether the last name may be given to a new item. -/
def nameFits (l : Location) : Bool := l.getLast?.any fun name => name.utf8ByteSize ≤ nameLimit

/-- Paths that can be looked up at all. -/
def usable (path : String) : Bool :=
  path ≠ "" ∧ path.utf8ByteSize ≤ pathLimit ∧ !path.toList.contains '\x00' ∧
    path.toList.head? ≠ some '/'

def parts (path : String) : List String := (path.split "/").toList.map (·.toString)

/-- Follows the parts of a path from `l`, which must be a folder before each part; the outermost folder
encloses itself. -/
def follow (f : Folder) (l : Location) : List String → Option Location
  | [] => some l
  | part :: rest =>
    if !f.isFolder l then none
    else if part = "" ∨ part = "." then f.follow l rest
    else if part = ".." then f.follow l.dropLast rest
    else f.follow (l ++ [part]) rest

/-- The location that a path names, which need not exist. -/
def locate (f : Folder) (path : String) : Option Location :=
  if usable path then f.follow home (parts path) else none

def contains (f : Folder) (path : String) : Bool := (f.locate path >>= f.item?).isSome

def read? (f : Folder) (path : String) : Option (List UInt8) :=
  f.locate path >>= f.item? >>= FolderItem.bytes?

/-- The content of a file that is valid UTF-8. -/
def readText? (f : Folder) (path : String) : Option String := do
  String.fromUTF8? ⟨(← f.read? path).toArray⟩

/-- Writes a file, new or not, into a folder that exists. -/
def write (f : Folder) (path : String) (bytes : List UInt8) : Option Folder := do
  let l ← f.locate path
  if f.isFolder l || !nameFits l then none else some (f.put l (.file bytes))

/-- Drops empty parts at the end. -/
def withoutSlashes (parts : List String) : List String :=
  (parts.reverse.dropWhile (· = "")).reverse

/-- Makes a new folder in one that exists. -/
def makeFolder (f : Folder) (path : String) : Option Folder := do
  let l ← if usable path then f.follow home (withoutSlashes (parts path)) else none
  if (f.item? l).isSome || !nameFits l then none else some (f.put l (.folder []))

/-- Makes the folders of a path from `l` on; those made before a failure stay. -/
def makeFrom (f : Folder) (l : Location) : List String → Bool × Folder
  | [] => (true, f)
  | part :: rest =>
    if part = "" ∨ part = "." then f.makeFrom l rest
    else if part = ".." then f.makeFrom l.dropLast rest
    else
      let l := l ++ [part]
      match f.item? l with
      | some (.folder _) => f.makeFrom l rest
      | some (.file _) => (false, f)
      | none => if nameFits l then (f.put l (.folder [])).makeFrom l rest else (false, f)

/-- Makes a folder and those around it that are missing. -/
def makeFolders (f : Folder) (path : String) : Bool × Folder :=
  if usable path then f.makeFrom home (parts path) else (false, f)

/-- Drops empty parts and single dots at the end, though not a dot that stands alone. -/
def trimEnd (parts : List String) : List String :=
  match parts.reverse.dropWhile (fun p => p = "" ∨ p = ".") with
  | [] => parts.take 1
  | kept => kept.reverse

/-- The path of the folder that a path lies in, empty for one without a folder part. -/
def parentPath (path : String) : String :=
  match (trimEnd (parts path)).dropLast with
  | [] => ""
  | rest => "/".intercalate (trimEnd rest)

end Folder

namespace Settings

/-- Settings from a file. -/
def load (f : Folder) (path : String) (codec : Toml.Codec := Toml.pretty) : Except SettingsError Settings :=
  match f.readText? path with
  | some text => parse text codec
  | none => .error (.fileNotRead path)

/-- Makes the folder that `path` lies in, unless something stands there. -/
def makeParent (f : Folder) (path : String) : Except SettingsError Unit × Folder :=
  let parent := Folder.parentPath path
  if parent = "" ∨ f.contains parent then (.ok (), f)
  else match f.makeFolders parent with
    | (true, f) => (.ok (), f)
    | (false, f) => (.error (.folderNotMade parent), f)

def store (s : Settings) (f : Folder) (path : String) (codec : Toml.Codec := Toml.pretty) :
    Except SettingsError Folder := do
  let text ← s.render codec
  match f.write path text.toUTF8.toList with
  | some f => return f
  | none => throw (.fileNotWritten path)

/-- Settings to a file: the outcome and the folder after it. -/
def save (s : Settings) (f : Folder) (path : String) (codec : Toml.Codec := Toml.pretty) :
    Except SettingsError Unit × Folder :=
  match makeParent f path with
  | (.error e, f) => (.error e, f)
  | (.ok (), f) =>
    match s.store f path codec with
    | .ok f => (.ok (), f)
    | .error e => (.error e, f)

end Settings

end SoundGraph
