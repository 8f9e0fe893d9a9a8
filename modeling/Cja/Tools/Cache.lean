import Cja.Lib.FileTree
import Cja.Lib.Locked
import Cja.Lib.Utf8
import Cja.Lib.Text

/-!
# The cache of build tools

`resolve` finds the executable of a pinned tool in the cache of the user, or fetches,
verifies and installs it. Every process takes the lock file of the tool first. The
operations are those on the file system, the fetch and the clock; the environment may
make any of them fail, and a failing one may have done part of its work. The cache
directory and the lock file stand before the lock is taken and stay, so they are no part
of the tree. The unpacking of one archive entry, the reading of an archive and SHA-256
are parameters. Each job is one without an override.
-/
namespace Cja.ToolCache
open FileTree Locked

abbrev Bytes := List UInt8

/-! ## Paths -/

/-- A path lists its components; `/` is the first of an absolute one. -/
def isAbsolute (p : Path) : Bool := p.head? == some "/"

def display (p : Path) : String :=
  match p with
  | "/" :: rest => "/" ++ "/".intercalate rest
  | p => "/".intercalate p

/-- `Path::parent` -/
def parentOf (p : Path) : Option Path :=
  if p = [] ∨ p = ["/"] then none else some p.dropLast

/-- `Component::Normal` -/
def isNormal (component : String) : Bool :=
  component != "/" && component != "." && component != ".."

/-! ## Tools -/

inductive Tool where
  | tsc | tailwind
deriving Repr, DecidableEq

def Tool.overrideEnv : Tool → String
  | .tsc => "TSC"
  | .tailwind => "TAILWIND_CLI"

structure ToolEnv where
  tscOverride : Option String
  tailwindOverride : Option String
  xdgCacheHome : Option Path
  home : Option Path
  offline : Bool
deriving Repr, DecidableEq

def ToolEnv.overrideFor (env : ToolEnv) : Tool → Option String
  | .tsc => env.tscOverride
  | .tailwind => env.tailwindOverride

/-- The directory of the user's caches. -/
def ToolEnv.cacheBase (env : ToolEnv) : Option Path :=
  (env.xdgCacheHome.filter isAbsolute).or (env.home.map fun p => p ++ [".cache"])

/-- No pinned tool has a name that starts with a dot. -/
structure ToolSpec where
  name : String
  version : String
  platform : String
  url : String
  digest : String
  archiveExecutable : Option Path
  tool : Tool
  visible : ∃ c cs, name.toList = c :: cs ∧ c ≠ '.'

def tscVersion : String := "7.0.2"

def tailwindVersion : String := "4.3.3"

/-- The asset of a host and its digest. -/
def tailwindAsset : String → Option (String × String)
  | "linux-x64" => some ("tailwindcss-linux-x64",
      "dc61b3ac6b8c9ca874c0cc4c57b2409791a64c5540404ca5f5367360babc313a")
  | "linux-arm64" => some ("tailwindcss-linux-arm64",
      "55fd0b241214eff3de1e8ee4f22796662f2d2e7a49bcfca7477cfd0bac398195")
  | "linux-x64-musl" => some ("tailwindcss-linux-x64-musl",
      "a04d34ceacc8f52cbe8920ad846cdeb61d3d0021dba32db0d1f77c9d9fad7a6c")
  | "linux-arm64-musl" => some ("tailwindcss-linux-arm64-musl",
      "71ea4be79c9de9827545682df3e040053fb535d37c71ed2cfdedf9385a0868e0")
  | "darwin-x64" => some ("tailwindcss-macos-x64",
      "7922e0953f2110c05976e3bf58f14e643d90427575e766b7d433f5f80cbee7e1")
  | "darwin-arm64" => some ("tailwindcss-macos-arm64",
      "cdf646702987a743464dff4d9c60fd4480d1c1e73dd819a9a67f1078815dce9d")
  | _ => none

def ToolSpec.tailwind (host : String) : Except String ToolSpec :=
  match tailwindAsset host with
  | some (asset, digest) => .ok {
      name := "tailwindcss"
      version := tailwindVersion
      platform := host
      url := "https://github.com/tailwindlabs/tailwindcss/releases/download/v" ++
        tailwindVersion ++ "/" ++ asset
      digest
      archiveExecutable := none
      tool := .tailwind
      visible := ⟨'t', "ailwindcss".toList, rfl, by decide⟩ }
  | none => .error ("unsupported native tailwindcss build host: " ++ host ++
      "; set TAILWIND_CLI to an installed executable")

/-- `str::strip_suffix("-musl")` where there is the suffix. -/
def archivePlatform (host : String) : String :=
  if "-musl".toList.isSuffixOf host.toList then
    String.ofList (host.toList.take (host.toList.length - "-musl".toList.length))
  else host

def tscDigest : String → Option String
  | "linux-arm64" => some "c83d931ac9dd7549cde6e71246aa9d6a9812843023df3e277fe3b5dcf41dd0ea"
  | "linux-x64" => some "7ecad6f67377e831856367ab062ef394f21506a611405bf8ac0ff039348637d3"
  | "darwin-arm64" => some "902e2fe1cf0799198ef902c6b8c310a450fef629a6baba41d45641ef75c04ebd"
  | "darwin-x64" => some "eba158cb54050f723d5ff781438f33de5640054440bb4f2bd170cfe9bc2eb551"
  | _ => none

def ToolSpec.tsc (host : String) : Except String ToolSpec :=
  match tscDigest (archivePlatform host) with
  | some digest => .ok {
      name := "tsc"
      version := tscVersion
      platform := host
      url := "https://github.com/microsoft/typescript-go/releases/download/typescript/v" ++
        tscVersion ++ "/typescript-" ++ archivePlatform host ++ ".tgz"
      digest
      archiveExecutable := some ["package", "lib", "tsc"]
      tool := .tsc
      visible := ⟨'t', "sc".toList, rfl, by decide⟩ }
  | none => .error ("unsupported native tsc build host: " ++ host)

namespace ToolSpec

variable (spec : ToolSpec)

def key : String := spec.name ++ "-" ++ spec.version ++ "-" ++ spec.platform

def executable (root : Path) : Path := root ++ spec.archiveExecutable.getD []

/-- The marker beside a single file. -/
def verifiedName : String := spec.key ++ ".verified"

end ToolSpec

def digestMarker : String := ".sha256"

def declarations : Path := ["package", "lib", "lib.d.ts"]

/-! ## Operations -/

inductive IoError where
  | notFound | alreadyExists | directoryNotEmpty | notADirectory | isADirectory | invalidData
  | other (text : String)
deriving Repr, DecidableEq

def IoError.text : IoError → String
  | .notFound => "No such file or directory (os error 2)"
  | .alreadyExists => "File exists (os error 17)"
  | .directoryNotEmpty => "Directory not empty (os error 39)"
  | .notADirectory => "Not a directory (os error 20)"
  | .isADirectory => "Is a directory (os error 21)"
  | .invalidData => "stream did not contain valid UTF-8"
  | .other text => text

/-- A file has its modification time in nanoseconds, if that is not before the epoch. -/
inductive Node where
  | file (bytes : Bytes) (modified : Option ℕ) (executable : Bool)
  | dir
deriving Repr, DecidableEq

abbrev Disk := FileTree.Tree Node

inductive EntryKind where
  | file | dir | other
deriving Repr, DecidableEq

/-- An entry of an archive; its path may not be readable. -/
structure Entry where
  path : Except String Path
  kind : EntryKind
  mode : ℕ
  bytes : Bytes

/-- `tar` and `flate2`: the entries of a compressed archive as far as it can be read, and
`unpack_in`, left alone and cut short after some steps. -/
structure Tar where
  entries : Bytes → Except String (List (Except String Entry))
  unpackIn : Path → Entry → Disk → Except String Unit × Disk
  partway : Path → Entry → ℕ → Disk → Disk

inductive Op where
  | createDirAll (p : Path)
  | openLock (p : Path)
  | exists (p : Path)
  | isFile (p : Path)
  | isDir (p : Path)
  | readToString (p : Path)
  | metadata (p : Path)
  | modified (p : Path)
  | openFile (p : Path)
  | readBytes (p : Path)
  | write (p : Path) (bytes : Bytes)
  | createFile (p : Path)
  | writeAll (p : Path) (bytes : Bytes)
  | setPermissions (p : Path)
  | rename (src dst : Path)
  | removeDirAll (p : Path)
  | removeFile (p : Path)
  | tempdirIn (p : Path)
  | sinceEpoch
  | fetch (url : String)
  | unpackIn (dst : Path) (entry : Entry)

/-- What an operation answers; `metadata` is read for its length. -/
@[reducible] def Answer : Op → Type
  | .exists _ | .isFile _ | .isDir _ => Bool
  | .readToString _ => Except IoError (List Char)
  | .metadata _ => Except IoError ℕ
  | .modified _ => Except IoError (Option ℕ)
  | .readBytes _ => Except IoError Bytes
  | .tempdirIn _ => Except IoError Path
  | .sinceEpoch => Except String ℕ
  | .fetch _ => Except String Bytes
  | .unpackIn .. => Except String Unit
  | .createDirAll _ | .openLock _ | .openFile _ | .write .. | .createFile _ | .writeAll ..
  | .setPermissions _ | .rename .. | .removeDirAll _ | .removeFile _ => Except IoError Unit

/-- What the environment decides at an operation. -/
structure Choice where
  fault : Option IoError
  progress : ℕ
  keeps : Path → Bool
  modified : Option ℕ
  suffix : String
  elapsed : Except String ℕ
  fetched : Except String Bytes

def decode (bytes : Bytes) : Option (List Char) :=
  (String.fromUTF8? ⟨bytes.toArray⟩).map String.toList

def isFileNode : Option Node → Bool
  | some (.file ..) => true
  | some .dir | none => false

def isDirNode : Option Node → Bool
  | some .dir => true
  | some (.file ..) | none => false

def bytesAt (d : Disk) (p : Path) : Except IoError Bytes :=
  match d.node p with
  | some (.file bytes _ _) => .ok bytes
  | some .dir => .error .isADirectory
  | none => .error .notFound

def textAt (d : Disk) (p : Path) : Except IoError (List Char) :=
  match bytesAt d p with
  | .error e => .error e
  | .ok bytes =>
      match decode bytes with
      | some text => .ok text
      | none => .error .invalidData

/-- A file opened for writing is cut to nothing. -/
def created (d : Disk) (p : Path) (bytes : Bytes) (modified : Option ℕ) : Except IoError Disk :=
  match d.node p with
  | some .dir => .error .isADirectory
  | some (.file _ _ executable) => .ok (d.put p (.file bytes modified executable))
  | none => .ok (d.put p (.file bytes modified false))

/-- `rename(2)` -/
def renamed (d : Disk) (src dst : Path) : Except IoError Disk :=
  match d.node src, d.node dst with
  | none, _ => .error .notFound
  | some (.file ..), some .dir => .error .isADirectory
  | some .dir, some (.file ..) => .error .notADirectory
  | some .dir, some .dir =>
      if d.bare dst then .ok (d.graft src dst) else .error .directoryNotEmpty
  | some _, _ => .ok (d.graft src dst)

/-- An operation that only looks. -/
def looked {α : Type} (c : Choice) (d : Disk) (answer : Except IoError α) :
    Except IoError α × Disk :=
  match c.fault with
  | some e => (.error e, d)
  | none => (answer, d)

/-- An operation that changes the tree, and what it leaves where it is cut short. -/
def changed (c : Choice) (d : Disk) (result : Except IoError Disk) (partway : Disk) :
    Except IoError Unit × Disk :=
  match c.fault, result with
  | some e, _ => (.error e, partway)
  | none, .ok d' => (.ok (), d')
  | none, .error e => (.error e, d)

/-- A write that has come to its first `progress` steps; the first one opens the file. -/
def cutShort (c : Choice) (d : Disk) (p : Path) (bytes : Bytes) : Disk :=
  match c.progress, created d p (bytes.take (c.progress - 1)) c.modified with
  | _ + 1, .ok d' => d'
  | _, _ => d

def filled (d : Disk) (p : Path) (bytes : Bytes) (modified : Option ℕ) : Except IoError Disk :=
  match d.node p with
  | some (.file _ _ executable) => .ok (d.put p (.file bytes modified executable))
  | some .dir => .error .isADirectory
  | none => .error .notFound

def withMode (d : Disk) (p : Path) : Except IoError Disk :=
  match d.node p with
  | some (.file bytes modified _) => .ok (d.put p (.file bytes modified true))
  | some .dir => .ok d
  | none => .error .notFound

def stagePath (dir : Path) (suffix : String) : Path := dir ++ [".cja-tool-" ++ suffix]

/-- What an operation answers and the tree it leaves. A new directory is empty; without a
fault a check tells what is there. -/
def effect (tar : Tar) : (op : Op) → Choice → Disk → Answer op × Disk
  | .createDirAll _, c, d | .openLock _, c, d => looked c d (.ok ())
  | .exists p, c, d => (c.fault.isNone && (d.node p).isSome, d)
  | .isFile p, c, d => (c.fault.isNone && isFileNode (d.node p), d)
  | .isDir p, c, d => (c.fault.isNone && isDirNode (d.node p), d)
  | .readToString p, c, d => looked c d (textAt d p)
  | .metadata p, c, d =>
      looked c d
        (match d.node p with
        | some (.file bytes _ _) => .ok bytes.length
        | some .dir => .ok 0
        | none => .error .notFound)
  | .modified p, c, d =>
      looked c d
        (match d.node p with
        | some (.file _ modified _) => .ok modified
        | some .dir => .ok c.modified
        | none => .error .notFound)
  | .openFile p, c, d =>
      looked c d (if (d.node p).isSome then .ok () else .error .notFound)
  | .readBytes p, c, d => looked c d (bytesAt d p)
  | .write p bytes, c, d => changed c d (created d p bytes c.modified) (cutShort c d p bytes)
  | .createFile p, c, d => changed c d (created d p [] c.modified) d
  | .writeAll p bytes, c, d =>
      changed c d (filled d p bytes c.modified)
        (match filled d p (bytes.take c.progress) c.modified with
        | .ok d' => d'
        | .error _ => d)
  | .setPermissions p, c, d => changed c d (withMode d p) d
  | .rename src dst, c, d => changed c d (renamed d src dst) d
  | .removeDirAll p, c, d =>
      changed c d
        (match d.node p with
        | some .dir => .ok (d.cut p)
        | some (.file ..) => .error .notADirectory
        | none => .error .notFound)
        (d.cutSparing c.keeps p)
  | .removeFile p, c, d =>
      changed c d
        (match d.node p with
        | some (.file ..) => .ok (d.cut p)
        | some .dir => .error .isADirectory
        | none => .error .notFound)
        d
  | .tempdirIn p, c, d =>
      match c.fault, d.node (stagePath p c.suffix) with
      | some e, _ => (.error e, d)
      | none, some _ => (.error .alreadyExists, d)
      | none, none =>
          (.ok (stagePath p c.suffix),
            (d.cut (stagePath p c.suffix)).put (stagePath p c.suffix) .dir)
  | .sinceEpoch, c, d => (c.elapsed, d)
  | .fetch _, c, d => (c.fetched, d)
  | .unpackIn dst entry, c, d =>
      match c.fault with
      | some e => (.error e.text, tar.partway dst entry c.progress d)
      | none => tar.unpackIn dst entry d

abbrev Io (α : Type) := Fallible Op Answer IoError α

abbrev Cache (α : Type) := Fallible Op Answer String α

def readToString (p : Path) : Io (List Char) := ExceptT.mk (Program.act (Op.readToString p))

def metadata (p : Path) : Io ℕ := ExceptT.mk (Program.act (Op.metadata p))

def modifiedTime (p : Path) : Io (Option ℕ) := ExceptT.mk (Program.act (Op.modified p))

def openFile (p : Path) : Io Unit := ExceptT.mk (Program.act (Op.openFile p))

def readBytes (p : Path) : Io Bytes := ExceptT.mk (Program.act (Op.readBytes p))

def write (p : Path) (bytes : Bytes) : Io Unit := ExceptT.mk (Program.act (Op.write p bytes))

def createFile (p : Path) : Io Unit := ExceptT.mk (Program.act (Op.createFile p))

def writeAll (p : Path) (bytes : Bytes) : Io Unit :=
  ExceptT.mk (Program.act (Op.writeAll p bytes))

def setPermissions (p : Path) : Io Unit := ExceptT.mk (Program.act (Op.setPermissions p))

def rename (src dst : Path) : Io Unit := ExceptT.mk (Program.act (Op.rename src dst))

def removeDirAll (p : Path) : Io Unit := ExceptT.mk (Program.act (Op.removeDirAll p))

def removeFile (p : Path) : Io Unit := ExceptT.mk (Program.act (Op.removeFile p))

def tempdirIn (p : Path) : Io Path := ExceptT.mk (Program.act (Op.tempdirIn p))

def createDirAll (p : Path) : Io Unit := ExceptT.mk (Program.act (Op.createDirAll p))

def openLock (p : Path) : Io Unit := ExceptT.mk (Program.act (Op.openLock p))

def sinceEpoch : Cache ℕ := ExceptT.mk (Program.act Op.sinceEpoch)

def fetch (url : String) : Cache Bytes := ExceptT.mk (Program.act (Op.fetch url))

def unpackIn (dst : Path) (entry : Entry) : Cache Unit :=
  ExceptT.mk (Program.act (Op.unpackIn dst entry))

/-! ## Checking an entry -/

section

variable (sha256 : Bytes → String) (spec : ToolSpec)

/-- What the marker of a verified file says. -/
def stamp (len nanos : ℕ) : List Char :=
  (toString len ++ " " ++ toString nanos ++ " " ++ spec.digest).toList

def markerPath (root : Path) : Path := root.dropLast ++ [spec.verifiedName]

/-- `is_some_and` on the stamp, `is_ok_and` on the marker. -/
def marked (marker : Path) : Option (List Char) → Cache Bool
  | none => pure false
  | some stamp => do
      match ← attempt (readToString marker) with
      | .ok value => pure (value == stamp)
      | .error _ => pure false

def writeMarker (root : Path) : Option (List Char) → Cache Unit
  | none => pure ()
  | some stamp =>
      mapErr (fun e => "write " ++ spec.name ++ " verified marker " ++
          display (markerPath spec root) ++ ": " ++ e.text)
        (write (markerPath spec root) (Utf8.bytes stamp))

/-- The bytes are hashed as they are read. -/
def hashFile (root : Path) : Cache String := do
  mapErr (fun e => "open " ++ spec.name ++ " cache " ++ display root ++ ": " ++ e.text)
    (openFile root)
  let bytes ← mapErr (fun e => "read " ++ spec.name ++ " cache " ++ display root ++ ": " ++ e.text)
    (readBytes root)
  pure (sha256 bytes)

def validFileCache (root : Path) : Cache Bool := do
  if !(← ask (Op.isFile root)) then pure false
  else do
    let len ← mapErr (fun e => "inspect " ++ spec.name ++ " cache " ++ display root ++ ": " ++ e.text)
      (metadata root)
    let modified ← mapErr
      (fun e => "inspect " ++ spec.name ++ " cache mtime " ++ display root ++ ": " ++ e.text)
      (modifiedTime root)
    let expected := modified.map (stamp spec len)
    if ← marked (markerPath spec root) expected then pure true
    else do
      let actual ← hashFile sha256 spec root
      if actual = spec.digest then do
        writeMarker spec root expected
        pure true
      else pure false

def bothFiles (p q : Path) : Cache Bool := do
  if ← ask (Op.isFile p) then ask (Op.isFile q) else pure false

/-- The marker is read with `.ok()`. -/
def validArchiveCache (root : Path) : Cache Bool := do
  match ← attempt (readToString (root ++ [digestMarker])) with
  | .ok text =>
      if Text.trim text = spec.digest.toList then
        bothFiles (spec.executable root) (root ++ declarations)
      else pure false
  | .error _ => pure false

def validCache (root : Path) : Cache Bool := do
  if !(← ask (Op.exists root)) then pure false
  else
    match spec.archiveExecutable with
    | some _ => validArchiveCache spec root
    | none => validFileCache sha256 spec root

end

/-! ## Installing -/

section

variable (tar : Tar) (sha256 : Bytes → String) (spec : ToolSpec)

def noParent (root : Path) : String :=
  spec.name ++ " cache entry " ++ display root ++ " for " ++ spec.url ++ " has no parent"

/-- One entry of the archive, checked before it is unpacked. -/
def unpackEntry (stage : Path) : Except String Entry → Cache Unit
  | .error e => throw ("read " ++ spec.name ++ " archive entry from " ++ spec.url ++ ": " ++ e)
  | .ok entry =>
      match entry.path with
      | .error e =>
          throw ("read " ++ spec.name ++ " archive entry path from " ++ spec.url ++ ": " ++ e)
      | .ok path =>
          if isAbsolute path || path.any fun c => !isNormal c then
            throw ("unsafe " ++ spec.name ++ " tar path " ++ display path ++ " from " ++ spec.url)
          else if entry.kind ≠ .file ∧ entry.kind ≠ .dir then
            throw ("unsafe " ++ spec.name ++ " tar entry " ++ display path ++ " from " ++ spec.url)
          else
            mapErr (fun e => "unpack " ++ spec.name ++ " archive entry " ++ display path ++
                " from " ++ spec.url ++ " into " ++ display stage ++ ": " ++ e)
              (unpackIn stage entry)

def unpackEntries (stage : Path) : List (Except String Entry) → Cache Unit
  | [] => pure ()
  | entry :: entries => do
      unpackEntry spec stage entry
      unpackEntries stage entries

def unpackArchive (bytes : Bytes) (stage executable : Path) : Cache Unit := do
  let entries ← mapErr
    (fun e => "read " ++ spec.name ++ " archive from " ++ spec.url ++ ": " ++ e)
    (settle (tar.entries bytes))
  unpackEntries spec stage entries
  if !(← bothFiles (stage ++ executable) (stage ++ declarations)) then
    throw (spec.name ++ " archive from " ++ spec.url ++ " lacks executable " ++
      display executable ++ " or declaration libraries in " ++ display stage)
  else
    mapErr (fun e => "write " ++ spec.name ++ " digest marker " ++
        display (stage ++ [digestMarker]) ++ " from " ++ spec.url ++ ": " ++ e.text)
      (write (stage ++ [digestMarker]) (Utf8.bytes spec.digest.toList))

def installSingleFile (root stage : Path) (bytes : Bytes) : Cache Unit := do
  let staged := stage ++ ["binary"]
  mapErr (fun e => "create " ++ spec.name ++ " download from " ++ spec.url ++ " at " ++
    display staged ++ ": " ++ e.text) (createFile staged)
  mapErr (fun e => "write " ++ spec.name ++ " download from " ++ spec.url ++ " at " ++
    display staged ++ ": " ++ e.text) (writeAll staged bytes)
  mapErr (fun e => "set permissions on " ++ spec.name ++ " download from " ++ spec.url ++ " at " ++
    display staged ++ ": " ++ e.text) (setPermissions staged)
  mapErr (fun e => "install " ++ spec.name ++ " download from " ++ spec.url ++ " from " ++
    display staged ++ " to " ++ display root ++ ": " ++ e.text) (rename staged root)

/-- The rename of a whole stage; where it fails the stage goes, and another installation
may have been first. -/
def installArchive (root staged : Path) : Cache Unit := do
  match ← attempt (rename staged root) with
  | .ok () => pure ()
  | .error e => do
      mapErr (fun cleanup => "clean staged " ++ spec.name ++ " archive " ++ display staged ++
        " from " ++ spec.url ++ ": " ++ cleanup.text) (removeDirAll staged)
      if e = .alreadyExists ∨ e = .directoryNotEmpty then
        if ← validCache sha256 spec root then pure ()
        else
          throw ("concurrent cache install left invalid entry at " ++ display root ++
            "; remove it and retry")
      else throw ("install " ++ display root ++ ": " ++ e.text)

/-- A `TempDir` that goes out of scope; a failure is ignored. -/
def dropStage (stage : Path) : Cache Unit := do
  let _ ← attempt (removeDirAll stage)

def installStaged (root stage : Path) (bytes : Bytes) : Cache Unit := do
  match spec.archiveExecutable with
  | some executable =>
      match ← attempt (unpackArchive tar spec bytes stage executable) with
      | .ok () => installArchive sha256 spec root stage
      | .error e => do
          dropStage stage
          throw e
  | none => do
      let result ← attempt (installSingleFile spec root stage bytes)
      dropStage stage
      settle result

def install (root : Path) : Cache Unit := do
  let bytes ← mapErr (fun error => error ++ "; set " ++ spec.tool.overrideEnv ++
    " to an installed executable or populate the verified cache at " ++ display root)
    (fetch spec.url)
  if sha256 bytes ≠ spec.digest then
    throw (spec.name ++ " download from " ++ spec.url ++ " for cache " ++ display root ++
      " SHA-256 mismatch: expected " ++ spec.digest ++ ", got " ++ sha256 bytes)
  else
    match parentOf root with
    | none => throw (noParent spec root)
    | some parent => do
        let stage ← mapErr (fun e => "stage " ++ spec.name ++ " download from " ++ spec.url ++
          " in " ++ display parent ++ ": " ++ e.text) (tempdirIn parent)
        installStaged tar sha256 spec root stage bytes

/-! ## Resolving -/

def stalePath (parent : Path) (pid nanos : ℕ) : Path :=
  parent ++ [spec.key ++ ".stale-" ++ toString pid ++ "-" ++ toString nanos]

/-- A corrupt entry is moved out of the way. -/
def moveAside (pid : ℕ) (root : Path) : Cache (Option Path) := do
  if ← ask (Op.exists root) then
    match parentOf root with
    | none => throw (noParent spec root)
    | some parent => do
        let nanos ← mapErr (fun e => "timestamp " ++ spec.name ++ " cache " ++ display root ++
          " from " ++ spec.url ++ ": " ++ e) sinceEpoch
        mapErr (fun e => "move corrupt cache " ++ display root ++ ": " ++ e.text ++
          "; remove it and retry") (rename root (stalePath spec parent pid nanos))
        pure (some (stalePath spec parent pid nanos))
  else pure none

def removeStale : Option Path → Cache Unit
  | none => pure ()
  | some path => do
      let isDir ← ask (Op.isDir path)
      mapErr (fun e => "remove stale cache " ++ display path ++ ": " ++ e.text)
        (if isDir then removeDirAll path else removeFile path)

def preserved (error : String) : Option Path → String
  | some path => error ++ "; previous cache preserved at " ++ display path
  | none => error

def reinstall (pid : ℕ) (root : Path) : Cache Path := do
  let stale ← moveAside spec pid root
  match ← attempt (install tar sha256 spec root) with
  | .ok () => do
      removeStale stale
      pure (spec.executable root)
  | .error error => throw (preserved error stale)

def unavailable (root : Path) : Cache Path := do
  if ← ask (Op.exists root) then
    throw (spec.name ++ " " ++ spec.version ++ " has an invalid cache entry at " ++
      display root ++ "; remove it and reinstall online, or set " ++ spec.tool.overrideEnv)
  else
    throw (spec.name ++ " " ++ spec.version ++ " unavailable offline at " ++ display root ++
      "; install it in the cache or set " ++ spec.tool.overrideEnv)

def resolveLocked (env : ToolEnv) (pid : ℕ) (root : Path) : Cache Path := do
  if ← validCache sha256 spec root then pure (spec.executable root)
  else if env.offline then unavailable spec root
  else reinstall tar sha256 spec pid root

/-- A call of `resolve` without an override, by a thread of a process; the calls share
the cache directory. -/
structure Job (base : Path) where
  env : ToolEnv
  pid : ℕ
  thread : ℕ
  noOverride : env.overrideFor spec.tool = none
  shared : env.cacheBase = some base
deriving DecidableEq

def lockPath (cacheParent : Path) : Path := cacheParent ++ [spec.key ++ ".lock"]

/-- The place of the entry is found first. -/
def openCache (env : ToolEnv) : Cache Path := do
  match env.cacheBase with
  | none => throw ("no tool cache base: set XDG_CACHE_HOME or HOME, or set " ++
      spec.tool.overrideEnv)
  | some base => do
      let cacheParent := base ++ ["cja"]
      mapErr (fun e => "create " ++ display cacheParent ++ ": " ++ e.text)
        (createDirAll cacheParent)
      mapErr (fun e => "open " ++ display (lockPath spec cacheParent) ++ ": " ++ e.text)
        (openLock (lockPath spec cacheParent))
      pure cacheParent

def resolve (base : Path) : Protocol Op Answer (Job spec base) Path IoError String Path where
  opening job := (openCache spec job.env).run
  refused _ cacheParent e := "lock " ++ display (lockPath spec cacheParent) ++ ": " ++ e.text
  critical job cacheParent :=
    (resolveLocked tar sha256 spec job.env job.pid (cacheParent ++ [spec.key])).run

end

end Cja.ToolCache
