import Cja.Lib.FileSystem

/-!
# The asset builder

`build_in` empties `OUT_DIR/cja-assets`, removes the old manifest, collects the
outputs of a static directory, of script entries and of Tailwind inputs, writes
one file for each and puts the manifest in place by a rename. The compilers, the
hash, the MIME table and JSON are the host's; a tool may change anything outside
`OUT_DIR`, and inside it the scratch directories it was given.
-/
namespace Cja.Assets
open FileSystem Fallible

inductive BuildError where
  | notADirectory (path : Path)
  | io (path : Path) (source : IoError)
  | invalidPath (path : Path) (reason : String)
  | collision (first second : Path) (hashedName : String)
  | frontend (message : String)
deriving Repr, DecidableEq

abbrev Build (α : Type) := ExceptT BuildError (StateM Disk) α

/-- A path as it is configured: joined to a base, or standing for itself. -/
inductive PathBuf where
  | relative (path : Path)
  | absolute (path : Path)
deriving Repr, DecidableEq

def PathBuf.path : PathBuf → Path
  | .relative path | .absolute path => path

def PathBuf.isAbsolute : PathBuf → Bool
  | .relative _ => false
  | .absolute _ => true

def join (base : Path) : PathBuf → Path
  | .relative path => base ++ path
  | .absolute path => path

def Path.display (path : Path) : String := "/" ++ "/".intercalate path

def PathBuf.display : PathBuf → String
  | .relative path => "/".intercalate path
  | .absolute path => Path.display path

structure AssetRecord where
  logicalName : String
  hashedName : String
  contentType : String
  sourcePath : Path
  bytes : Bytes
deriving Repr, DecidableEq

inductive EntryFormat where
  | iife (globalName : Option String)
  | esm
deriving Repr, DecidableEq

/-- A script entry; its source is relative to `frontend_dir`. -/
structure Entry where
  source : PathBuf
  logicalName : String
  format : EntryFormat
deriving Repr, DecidableEq

structure Tailwind where
  input : PathBuf
  logicalName : String
deriving Repr, DecidableEq

/-- The builder without `outputs`, which the functions below thread. -/
structure AssetsBuilder where
  assetsDir : Option PathBuf
  frontendDir : PathBuf
  entries : List Entry
  tailwinds : List Tailwind

structure DirEntry where
  name : String
  utf8 : Bool

structure Bundle where
  js : Bytes
  map : Bytes
  watchFiles : List Path

structure ToolOutput where
  success : Bool
  status : String
  streams : String
  css : Except String Bytes

/-- What the builder takes from the host. A function that may change the disk
returns the tree it leaves. -/
structure Host where
  canonicalize : Tree → Path → Except String Path
  readDir : Tree → Path → List DirEntry
  /-- How deep directories nest before a path is too long. -/
  maxDepth : ℕ
  sha256Hex : Bytes → String
  mimeGuess : String → String
  /-- `watch_config`: the tsconfig and what it extends. -/
  watchConfig : Tree → Path → Path → Except String Unit
  /-- `check_types`, with the resolution of tsc. -/
  checkTypes : AssetsBuilder → Path → Path → Path → Tree → Except String Unit × Tree
  /-- `bundle_entry` in a scratch directory. -/
  bundleEntry : Entry → Path → Tree → Except String Bundle × Tree
  /-- The checked source map with its `file` set to the logical name, as bytes. -/
  sourceMap : Bytes → String → Except String Bytes
  /-- `tailwind::validate_css` -/
  validateCss : Tree → Path → Path → Path → Except BuildError Path
  resolveTailwind : Tree → Except String Path × Tree
  /-- The Tailwind executable on one input, in a scratch directory. -/
  runTailwind : Path → Path → Tree → Except String ToolOutput × Tree
  tailwindVersion : String

variable (H : Host)

/-! ## Tools -/

/-- Names that `tempdir_in` gives to scratch directories. -/
def isScratch (name : String) : Bool :=
  "cja-bundle-".toList.isPrefixOf name.toList || "cja-tailwind-".toList.isPrefixOf name.toList

/-- Paths in `OUT_DIR` that no tool touches. -/
def guarded (outDir p : Path) : Bool :=
  outDir.isPrefixOf p && !(p[outDir.length]?).any isScratch

/-- Running a tool. -/
def tool {α : Type} (outDir : Path) (f : Tree → Except String α × Tree) : Build α :=
  ofOutcome fun d =>
    ((f d.tree).1.mapError .frontend,
      d.withTree fun p => if guarded outDir p then d.tree p else (f d.tree).2 p)

def io {α : Type} (path : Path) (op : Io α) : Build α := mapErr (.io path) op

def liftExcept {α : Type} (r : Except BuildError α) : Build α := ofOutcome fun d => (r, d)

def frontendError {α : Type} (message : String) : Build α := throw (.frontend message)

/-! ## Names -/

/-- `str::split('/')` -/
def components (name : String) : Path := (name.toList.splitOn '/').map String.ofList

/-- `str::rsplit_once` on characters. -/
def rsplitOnce (c : Char) (cs : List Char) : Option (List Char × List Char) :=
  if c ∈ cs then
    some ((cs.reverse.dropWhile (· ≠ c)).tail.reverse, (cs.reverse.takeWhile (· ≠ c)).reverse)
  else none

def isNameChar (c : Char) : Bool := c.isAlphanum || "._~@+-".toList.contains c

def reasonAllowed : String :=
  "only ASCII letters, digits, . _ ~ @ + - and / are allowed"

/-- The test on `Path::components` refuses nothing that the test on the parts does
not. -/
def validateName (name : String) (path : Path) : Except BuildError Unit :=
  if name = "" || (components name).any fun part =>
      part = "" || part = "." || part = ".." || !part.toList.all isNameChar then
    .error (.invalidPath path reasonAllowed)
  else .ok ()

/-- `Path::extension` of the last part. -/
def extension (fileName : String) : Option String :=
  match rsplitOnce '.' fileName.toList with
  | some (stem, ext) => if stem = [] then none else some (String.ofList ext)
  | none => none

def fileName (name : String) : Option String := (components name).getLast?

def nameExtension (name : String) : Option String := (fileName name).bind extension

def shortHash (bytes : Bytes) : String := String.ofList ((H.sha256Hex bytes).toList.take 8)

def hashedFile (fileName hash : String) : String :=
  match rsplitOnce '.' fileName.toList with
  | some (stem, ext) =>
      if stem = [] then fileName ++ "." ++ hash
      else String.ofList stem ++ "." ++ hash ++ "." ++ String.ofList ext
  | none => fileName ++ "." ++ hash

def contentType (logicalName : String) : String :=
  if nameExtension logicalName = some "map" then "application/json" else H.mimeGuess logicalName

/-! ## Outputs -/

/-- `add_output`: the outputs with the new one, and its hashed name. -/
def addOutput (outputs : List AssetRecord) (logicalName : String) (bytes : Bytes)
    (sourcePath : Path) : Except BuildError (List AssetRecord × String) := do
  validateName logicalName sourcePath
  match fileName logicalName with
  | none => throw (.invalidPath sourcePath "missing filename")
  | some file =>
      let hashedFile := hashedFile file (shortHash H bytes)
      let hashedName :=
        match rsplitOnce '/' logicalName.toList with
        | some (parent, _) => String.ofList parent ++ "/" ++ hashedFile
        | none => hashedFile
      match outputs.find? fun r => r.logicalName == logicalName || r.hashedName == hashedName with
      | some first => throw (.collision first.sourcePath sourcePath hashedName)
      | none =>
          pure (outputs ++ [⟨logicalName, hashedName, contentType H logicalName, sourcePath, bytes⟩],
            hashedName)

/-- `watch_dir`; what it prints for Cargo is left out. -/
def watchDir (outDir path : Path) : Build Unit := do
  let refused ← look fun t =>
    let out := (H.canonicalize t outDir).toOption.getD outDir
    let watched := (H.canonicalize t path).toOption.getD path
    if watched.isPrefixOf out || out.isPrefixOf watched then
      some ("refusing Cargo watch of " ++ Path.display watched ++
        " because it contains or is inside OUT_DIR " ++ Path.display out)
    else if t.isDir watched && t.isDir (watched ++ ["target"]) then
      some ("refusing Cargo watch of " ++ Path.display watched ++ " because it contains target/")
    else none
  match refused with
  | some message => frontendError message
  | none => pure ()

/-- One entry of a directory, whose own directories `collect` walks. -/
def collectEntry (collect : Path → String → List (String × Path) → Build (List (String × Path)))
    (dir : Path) (relativeDir : String) (files : List (String × Path)) (entry : DirEntry) :
    Build (List (String × Path)) := do
  let path := dir ++ [entry.name]
  if entry.name.toList.head? = some '.' then pure files
  else if !entry.utf8 then throw (.invalidPath path "non-UTF-8 name")
  else
    let name := if relativeDir = "" then entry.name else relativeDir ++ "/" ++ entry.name
    liftExcept (validateName name path)
    match ← io path (symlinkMetadata path) with
    | .link _ => throw (.invalidPath path "symlinks are not supported")
    | .dir => collect path name files
    | .file _ => pure (files ++ [(name, path)])

/-- `collect_files`, to the depth at which a path is too long. -/
def collectFiles : ℕ → Path → String → List (String × Path) → Build (List (String × Path))
  | 0, dir, _, _ => throw (.io dir .nameTooLong)
  | depth + 1, dir, relativeDir, files => do
      let entries ← io dir (query fun t =>
        if t.isDir dir then .ok (H.readDir t dir) else .error .notADirectory)
      entries.foldlM (collectEntry (collectFiles depth) dir relativeDir) files

def fileBefore (a b : String × Path) : Bool := decide (a.1 < b.1) || a.1 == b.1

/-- The outputs of the static directory. -/
def buildStatic (b : AssetsBuilder) (manifestDir outDir : Path) : Build (List AssetRecord) :=
  match b.assetsDir with
  | none => pure []
  | some assetsDir => do
      let sourceDir := join manifestDir assetsDir
      watchDir H outDir sourceDir
      match ← io sourceDir (symlinkMetadata sourceDir) with
      | .link _ => throw (.invalidPath sourceDir "symlinks are not supported")
      | .file _ => throw (.notADirectory sourceDir)
      | .dir =>
          let files ← collectFiles H H.maxDepth sourceDir "" []
          (files.mergeSort fileBefore).foldlM
            (fun outputs (file : String × Path) => do
              let bytes ← io file.2 (read file.2)
              let added ← liftExcept (addOutput H outputs file.1 bytes file.2)
              pure added.1) []

/-! ## Script entries -/

def validGlobal (name : String) : Bool :=
  match name.toList with
  | [] => false
  | c :: cs =>
      (c.isAlpha || c == '_' || c == '$') && cs.all fun c => c.isAlphanum || c == '_' || c == '$'

def validateEntry (b : AssetsBuilder) (outputs : List AssetRecord) (entry : Entry) :
    Except BuildError Unit := do
  validateName entry.logicalName entry.source.path
  if nameExtension entry.logicalName ≠ some "js" then
    throw (.frontend ("logical entry name must end in .js: " ++ entry.logicalName))
  validateName entry.source.display entry.source.path
  let sourceExtension := entry.source.path.getLast?.bind extension
  if sourceExtension ≠ some "ts" ∧ sourceExtension ≠ some "js" then
    throw (.frontend ("entry source must end in .ts or .js: " ++ entry.source.display))
  match entry.format with
  | .iife (some name) =>
      if !validGlobal name then
        throw (.frontend ("invalid IIFE global name \"" ++ name ++ "\""))
  | _ => pure ()
  let mapName := entry.logicalName ++ ".map"
  if outputs.any (fun r => r.logicalName == entry.logicalName || r.logicalName == mapName) ||
      (b.entries.filter fun candidate => candidate.logicalName == entry.logicalName ||
        candidate.logicalName == mapName).length != 1 then
    throw (.frontend ("entry output collision: " ++ entry.logicalName ++ " or " ++ mapName))

def decodeUtf8 (bytes : Bytes) : Option String := String.fromUTF8? ⟨bytes.toArray⟩

def encodeUtf8 (text : String) : Bytes := text.toUTF8.toList

/-- The script with its map reference set to the hashed map. -/
def linkSourceMap (entry : Entry) (js : Bytes) (mapHashed : String) : Except BuildError Bytes :=
  match fileName mapHashed with
  | none => .error (.frontend "invalid hashed map name")
  | some mapBasename =>
      match decodeUtf8 js with
      | none => .error (.frontend "invalid utf-8 sequence")
      | some js =>
          let old := "sourceMappingURL=entry.js.map"
          if (js.splitOn old).length ≠ 2 then
            .error (.frontend ("expected one Rolldown sourceMappingURL for " ++ entry.logicalName))
          else .ok (encodeUtf8 ((("sourceMappingURL=" ++ mapBasename).intercalate (js.splitOn old))))

/-- One round of the loop over the entries. -/
def buildEntry (frontend outDir : Path) (outputs : List AssetRecord) (entry : Entry) :
    Build (List AssetRecord) := do
  let bundle ← tool outDir (H.bundleEntry entry frontend)
  bundle.watchFiles.forM (watchDir H outDir)
  let sourcePath := join frontend entry.source
  let map ← liftExcept ((H.sourceMap bundle.map entry.logicalName).mapError .frontend)
  let withMap ← liftExcept (addOutput H outputs (entry.logicalName ++ ".map") map sourcePath)
  let js ← liftExcept (linkSourceMap entry bundle.js withMap.2)
  let withJs ← liftExcept (addOutput H withMap.1 entry.logicalName js sourcePath)
  pure withJs.1

def frontendRoot (b : AssetsBuilder) (manifestDir : Path) (t : Tree) : Except BuildError Path :=
  let frontend := join manifestDir b.frontendDir
  match H.canonicalize t frontend, H.canonicalize t manifestDir with
  | .error e, _ => .error (.frontend ("frontend root " ++ Path.display frontend ++ ": " ++ e))
  | .ok _, .error e => .error (.frontend e)
  | .ok frontend, .ok appRoot =>
      if !appRoot.isPrefixOf frontend then
        .error (.frontend ("frontend root " ++ Path.display frontend ++ " escapes app root"))
      else if !t.isFile (frontend ++ ["tsconfig.json"]) then
        .error (.frontend (Path.display (frontend ++ ["tsconfig.json"]) ++
          " is required for TypeScript entries; add a strict tsconfig.json with noEmit, ES2022 " ++
          "and DOM libs"))
      else .ok frontend

def buildEntries (b : AssetsBuilder) (manifestDir outDir : Path) (outputs : List AssetRecord) :
    Build (List AssetRecord) := do
  watchDir H outDir (join manifestDir b.frontendDir)
  let root ← look (frontendRoot H b manifestDir)
  let frontend ← liftExcept root
  let config := frontend ++ ["tsconfig.json"]
  let watched ← look fun t => H.watchConfig t config outDir
  liftExcept (watched.mapError .frontend)
  b.entries.forM fun entry => liftExcept (validateEntry b outputs entry)
  tool outDir (H.checkTypes b frontend config outDir)
  b.entries.foldlM (buildEntry H frontend outDir) outputs

/-! ## Tailwind inputs -/

def validateTailwind (manifestDir outDir : Path) (input : Tailwind) : Build Path := do
  liftExcept (validateName input.logicalName input.input.path)
  if nameExtension input.logicalName ≠ some "css" then
    frontendError ("Tailwind logical name must end in .css: " ++ input.logicalName)
  else if input.input.isAbsolute then
    frontendError ("Tailwind input must be manifest-relative: " ++ input.input.display)
  else
    let css := join manifestDir input.input
    if css.getLast?.bind extension ≠ some "css" then
      frontendError ("Tailwind input must end in .css: " ++ Path.display css)
    else
      let checked ← look fun t => H.validateCss t css manifestDir outDir
      liftExcept checked

def tailwindBytes (css : Path) (output : ToolOutput) : Except BuildError Bytes :=
  if !output.success then
    .error (.frontend ("Tailwind failed for " ++ Path.display css ++ " (" ++ output.status ++
      "):\n" ++ output.streams))
  else
    match output.css with
    | .error e =>
        .error (.frontend ("Tailwind produced no output for " ++ Path.display css ++ ": " ++ e ++
          "\n" ++ output.streams))
    | .ok bytes =>
        let banner := "/*! tailwindcss v" ++ H.tailwindVersion ++ " |"
        if bytes = [] || !(encodeUtf8 banner).isPrefixOf bytes then
          .error (.frontend ("Tailwind output for " ++ Path.display css ++
            " is empty or lacks pinned " ++ banner ++ " banner:\n" ++ output.streams))
        else .ok bytes

def buildTailwind (executable outDir : Path) (outputs : List AssetRecord)
    (input : Tailwind × Path) : Build (List AssetRecord) := do
  let output ← tool outDir (H.runTailwind executable input.2)
  let bytes ← liftExcept (tailwindBytes H input.2 output)
  let added ← liftExcept (addOutput H outputs input.1.logicalName bytes input.2)
  pure added.1

def buildTailwinds (b : AssetsBuilder) (manifestDir outDir : Path) (outputs : List AssetRecord) :
    Build (List AssetRecord) := do
  let validated ← b.tailwinds.foldlM
    (fun css input => do
      let path ← validateTailwind H manifestDir outDir input
      pure (css ++ [path])) []
  let executable ← tool outDir H.resolveTailwind
  watchDir H outDir executable
  (b.tailwinds.zip validated).foldlM (buildTailwind H executable outDir) outputs

/-! ## The manifest -/

/-- `{:?}` of a string of printable ASCII characters. -/
def debugString (text : String) : String :=
  "\"" ++ String.ofList (text.toList.flatMap fun c =>
    if c = '"' || c = '\\' then ['\\', c] else [c]) ++ "\""

def AssetRecord.line (r : AssetRecord) : String :=
  "Asset \x7b logical_name: " ++ debugString r.logicalName ++ ", hashed_name: " ++
    debugString r.hashedName ++ ", content_type: " ++ debugString r.contentType ++
    ", bytes: include_bytes!(concat!(env!(\"OUT_DIR\"), " ++
    debugString ("/cja-assets/" ++ r.hashedName) ++ ")) \x7d,\n"

/-- The manifest of a list of outputs: one line each. -/
def manifestText (outputs : List AssetRecord) : String :=
  "[\n" ++ String.join (outputs.map AssetRecord.line) ++ "]\n"

def finalDir (outDir : Path) : Path := outDir ++ ["cja-assets"]

def manifestPath (outDir : Path) : Path := outDir ++ ["cja_assets.rs"]

def pendingPath (outDir : Path) : Path := outDir ++ ["cja_assets.rs.tmp"]

def AssetRecord.path (outDir : Path) (r : AssetRecord) : Path :=
  finalDir outDir ++ components r.hashedName

def writeOutput (outDir : Path) (r : AssetRecord) : Build Unit := do
  io (r.path outDir).dropLast (createDirAll (r.path outDir).dropLast)
  io (r.path outDir) (write (r.path outDir) r.bytes)

/-- Removes what is found at a path, if anything is. -/
def removeExisting (path : Path) (op : Io Unit) : Build Unit := do
  let occupied ← look fun t => t.occupied path
  if occupied then io path op else pure ()

/-- The first steps: an empty `cja-assets`, and no manifest. -/
def clearOutputs (outDir : Path) : Build Unit := do
  removeExisting (finalDir outDir) (removeDirAll (finalDir outDir))
  io (finalDir outDir) (createDirAll (finalDir outDir))
  removeExisting (manifestPath outDir) (removeFile (manifestPath outDir))

def collectOutputs (b : AssetsBuilder) (manifestDir outDir : Path) : Build (List AssetRecord) := do
  let static ← buildStatic H b manifestDir outDir
  let scripts ← (if b.entries = [] then pure static
    else buildEntries H b manifestDir outDir static)
  if b.tailwinds = [] then pure scripts else buildTailwinds H b manifestDir outDir scripts

def publish (outDir : Path) (outputs : List AssetRecord) : Build Unit := do
  outputs.forM (writeOutput outDir)
  io (pendingPath outDir)
    (write (pendingPath outDir) (encodeUtf8 (manifestText outputs)))
  io (manifestPath outDir) (rename (pendingPath outDir) (manifestPath outDir))

/-- `build_in`; the outputs it has written are kept for the statements. -/
def buildIn (b : AssetsBuilder) (manifestDir outDir : Path) : Build (List AssetRecord) := do
  clearOutputs outDir
  let outputs ← collectOutputs H b manifestDir outDir
  publish outDir outputs
  pure outputs

end Cja.Assets
