import Cja.Assets.Embedded
import Cja.Assets.Order

/-!
# From the build to the URL

Each manifest is what `include_assets!` embeds after a successful build. Its logical
names and its hashed names are distinct, every script names its own source map, and
the router serves each entry at the URL that `asset_url` gives.
-/
namespace Cja.Assets
open FileSystem Fallible

variable {H : Host} {b : AssetsBuilder} {manifestDir outDir : Path} {d d' : Disk}
variable {outputs outputs' : List AssetRecord} {I : Tree → Prop}

/-! ## The outputs of a build -/

/-- The script of an entry, among the outputs with its map, names that map. -/
def Linked (outputs : List AssetRecord) (entry : Entry) : Prop :=
  ∃ js ∈ outputs, ∃ map ∈ outputs, js.logicalName = entry.logicalName ∧
    map.logicalName = entry.logicalName ++ ".map" ∧
    ∃ text url, decodeUtf8 js.bytes = some text ∧ sourceMappingUrl text = some url ∧
      resolveUrl (hashedUrl js.hashedName) url = hashedUrl map.hashedName

theorem Linked.added {r : AssetRecord} {entry : Entry} (h : Linked outputs entry)
    (ha : Added H outputs outputs' r) : Linked outputs' entry := by
  obtain ⟨js, hjs, map, hmap, hrest⟩ := h
  rw [ha.eq]
  exact ⟨js, List.mem_append_left _ hjs, map, List.mem_append_left _ hmap, hrest⟩

/-- The bundler's scripts carry their comment. -/
def Bundled (H : Host) : Prop :=
  ∀ entry frontend t bundle t', H.bundleEntry entry frontend t = (.ok bundle, t') →
    Commented bundle.js

/-- A legal file name, put beside a script, is resolved to its place. -/
theorem resolve_hashedUrl {folder file reference : List Char}
    (hp : Parted (folder ++ file) folder file) (href : '/' ∉ reference)
    (hlegal : Legal (String.ofList (folder ++ reference))) :
    resolveUrl (hashedUrl (String.ofList (folder ++ file))) (String.ofList reference) =
      hashedUrl (String.ofList (folder ++ reference)) := by
  have hlead : ∀ cs : List Char, hashedUrl (String.ofList (folder ++ cs)) =
      String.ofList (("/assets/".toList ++ folder) ++ cs) := by
    intro cs
    apply String.toList_injective
    simp only [hashedUrl, String.toList_append, String.toList_ofList, List.append_assoc]
  have hparted : Parted (("/assets/".toList ++ folder) ++ file) ("/assets/".toList ++ folder)
      file := by
    refine ⟨rfl, .inr ?_, hp.base⟩
    obtain hempty | ⟨parent, hparent⟩ := hp.slash
    · exact ⟨"/assets".toList, by rw [hempty]; rfl⟩
    · exact ⟨"/assets/".toList ++ parent, by rw [hparent, List.append_assoc]⟩
  have hcomponents : components (String.ofList (("/assets/".toList ++ folder) ++ reference)) =
      ["", "assets"] ++ components (String.ofList (folder ++ reference)) := by
    have hsplit : ("/assets/".toList ++ folder) ++ reference =
        [] ++ '/' :: ("assets".toList ++ '/' :: (folder ++ reference)) := by
      rw [List.append_assoc]
      rfl
    have hassets : '/' ∉ "assets".toList := by decide
    simp only [components, String.toList_ofList]
    rw [hsplit, List.splitOn_append_cons_self, List.splitOn_append_cons_self, List.splitOn_nil,
      List.splitOn_eq_singleton hassets]
    rfl
  rw [hlead, hlead]
  refine resolveUrl_sibling hparted href fun segment hsegment => ?_
  rw [hcomponents, List.mem_append] at hsegment
  obtain hsegment | hsegment := hsegment
  · have hall : (["", "assets"].all fun s => !isDotSegment s) = true := by decide
    simpa using List.all_eq_true.1 hall segment hsegment
  · obtain ⟨_, hdot, hdots, _⟩ := hlegal.2 segment hsegment
    simp [isDotSegment, hdot, hdots]

/-- The script linked to the map that was added before it. -/
theorem linked_of_added (hH : HexDigest H) {entry : Entry} {js linked : Bytes}
    {map script : AssetRecord} {withMap withJs : List AssetRecord}
    (hmap : Added H outputs withMap map) (hjs : Added H withMap withJs script)
    (hmapName : map.logicalName = entry.logicalName ++ ".map")
    (hjsName : script.logicalName = entry.logicalName) (hbytes : script.bytes = linked)
    (hcomment : Commented js) (hlink : linkSourceMap entry js map.hashedName = .ok linked) :
    Linked withJs entry := by
  obtain ⟨folder, base, hpjs, hjsHashed⟩ := hjs.hashed
  obtain ⟨folder', base', hpmap, hmapHashed⟩ := hmap.hashed
  have hsame : Parted map.logicalName.toList folder (base ++ ".map".toList) := by
    rw [hmapName, String.toList_append, ← hjsName]
    refine ⟨by rw [← List.append_assoc, ← hpjs.eq], hpjs.slash, ?_⟩
    rw [List.mem_append, not_or]
    exact ⟨hpjs.base, by decide⟩
  obtain ⟨rfl, rfl⟩ := hsame.unique hpmap
  have hlegal : ∀ (r : AssetRecord) (folder base : List Char), Legal r.logicalName →
      Parted r.logicalName.toList folder base →
      LegalPart (hashedFile (String.ofList base) (shortHash H r.bytes)) := by
    intro r folder base hr hp
    rw [← String.ofList_toList (s := r.logicalName)] at hr
    exact hashedFile_legal (hr.file hp) (shortHash_length hH _) (shortHash_hex hH _)
  have hmapLegal := hlegal _ _ _ hmap.legal hsame
  have hmapParted := hsame.append (slash_not_legal hmapLegal)
  have hfile := hmapParted.fileName
  rw [← hmapHashed] at hfile
  obtain ⟨text, hdecode, hurl⟩ := linkSourceMap_names hcomment hfile
    (fun c hc => not_whitespace (hmapLegal.2.2.2 c hc)) hlink
  refine ⟨script, ?_, map, ?_, hjsName, hmapName, text, _, ?_, hurl, ?_⟩
  · rw [hjs.eq]
    exact List.mem_append_right _ (List.mem_singleton_self _)
  · rw [hjs.eq, hmap.eq]
    simp
  · rw [hbytes]
    exact hdecode
  · rw [hjsHashed, hmapHashed]
    refine resolve_hashedUrl (hpjs.append (slash_not_legal (hlegal _ _ _ hjs.legal hpjs)))
      (slash_not_legal hmapLegal) ?_
    rw [← hmapHashed]
    exact hmap.hashed.legal hH hmap.legal

/-! ## Collecting -/

theorem tool_ends {α : Type} (hI : Guarded outDir I) (f : Tree → Except String α × Tree) :
    Ends (fun d : Disk => I d.tree) (tool outDir f)
      (fun a d => (∃ t t', f t = (.ok a, t')) ∧ I d.tree) (fun d => I d.tree) where
  ok := by
    intro d a d' hd heq
    refine ⟨⟨d.tree, (f d.tree).2, ?_⟩, (tool_keeps hI f).ok d a d' hd heq⟩
    have hresult := congrArg Prod.fst heq
    change (f d.tree).1.mapError BuildError.frontend = .ok a at hresult
    cases hrun : f d.tree with
    | mk result t' =>
        rw [hrun] at hresult
        cases result with
        | error e => cases hresult
        | ok x => cases hresult; rfl
  error := (tool_keeps hI f).error

theorem addOutput_adds {logicalName : String} {bytes : Bytes} {sourcePath : Path} :
    Ends (fun d : Disk => I d.tree)
      (liftExcept (addOutput H outputs logicalName bytes sourcePath))
      (fun added d => Added H outputs added.1 ⟨logicalName, added.2, contentType H logicalName,
        sourcePath, bytes⟩ ∧ I d.tree) (fun d => I d.tree) :=
  (liftExcept_ends _).weaken (fun _ h => h) (fun _ _ h => ⟨addOutput_added h.1, h.2⟩) fun _ h => h

theorem buildStatic_lists : Ends (fun d : Disk => I d.tree) (buildStatic H b manifestDir outDir)
    (fun outputs d => Lists H outputs ∧ I d.tree) (fun d => I d.tree) := by
  unfold buildStatic
  cases b.assetsDir with
  | none => exact .of_pure fun _ h => ⟨lists_nil H, h⟩
  | some assetsDir =>
      refine Ends.bind (watchDir_keeps _) fun _ => ?_
      refine Ends.bind (Ends.io symlinkMetadata_keeps) fun node => ?_
      cases node with
      | link target => exact .of_throw fun _ h => h
      | file bytes => exact .of_throw fun _ h => h
      | dir =>
          refine Ends.bind (collectFiles_keeps ..) fun files => ?_
          refine Ends.foldlM (lists_nil H) fun outputs file _ hl => ?_
          refine Ends.bind (Ends.io read_keeps) fun bytes => ?_
          refine Ends.bind addOutput_adds fun added => ?_
          refine Ends.assume fun ha => ?_
          exact .of_pure fun _ h => ⟨hl.added ha, h⟩

/-- What adding an output keeps. -/
def Grows (H : Host) (J : List AssetRecord → Prop) : Prop :=
  ∀ outputs outputs' r, J outputs → Added H outputs outputs' r → J outputs'

variable {J : List AssetRecord → Prop}

theorem grows_lists (H : Host) : Grows H (Lists H) := fun _ _ _ hl ha => hl.added ha

theorem grows_static (H : Host) (static : List AssetRecord) : Grows H (static <+: ·) := by
  intro outputs outputs' r h ha
  rw [ha.eq]
  exact h.trans (List.prefix_append ..)

theorem buildEntry_links (hH : HexDigest H) (hB : Bundled H) (hI : Guarded outDir I)
    (hJ : Grows H J) (frontend : Path) (entry : Entry) {done : List Entry}
    (hl : J outputs ∧ ∀ e ∈ done, Linked outputs e) :
    Ends (fun d : Disk => I d.tree) (buildEntry H frontend outDir outputs entry)
      (fun outputs d => (J outputs ∧ ∀ e ∈ done ++ [entry], Linked outputs e) ∧ I d.tree)
      (fun d => I d.tree) := by
  unfold buildEntry
  refine Ends.bind (tool_ends hI _) fun bundle => ?_
  refine Ends.assume fun hbundle => ?_
  obtain ⟨t, t', hbundle⟩ := hbundle
  refine Ends.bind (Keeps.forM fun file _ => watchDir_keeps file) fun _ => ?_
  refine Ends.bind (liftExcept_keeps _) fun map => ?_
  refine Ends.bind addOutput_adds fun withMap => ?_
  refine Ends.assume fun hmap => ?_
  refine Ends.bind (liftExcept_ends _) fun js => ?_
  refine Ends.assume fun hlink => ?_
  refine Ends.bind addOutput_adds fun withJs => ?_
  refine Ends.assume fun hjs => ?_
  refine .of_pure fun _ h => ⟨⟨hJ _ _ _ (hJ _ _ _ hl.1 hmap) hjs, fun e he => ?_⟩, h⟩
  obtain he | he := List.mem_append.1 he
  · exact ((hl.2 e he).added hmap).added hjs
  · rw [List.mem_singleton.1 he]
    exact linked_of_added hH hmap hjs rfl rfl rfl (hB _ _ _ _ _ hbundle) hlink

theorem buildEntries_links (hH : HexDigest H) (hB : Bundled H) (hI : Guarded outDir I)
    (hJ : Grows H J) (hl : J outputs) :
    Ends (fun d : Disk => I d.tree) (buildEntries H b manifestDir outDir outputs)
      (fun outputs d => (J outputs ∧ ∀ e ∈ b.entries, Linked outputs e) ∧ I d.tree)
      (fun d => I d.tree) := by
  unfold buildEntries
  refine Ends.bind (watchDir_keeps _) fun _ => ?_
  refine Ends.bind (look_keeps _) fun root => ?_
  refine Ends.bind (liftExcept_keeps _) fun frontend => ?_
  refine Ends.bind (look_keeps _) fun watched => ?_
  refine Ends.bind (liftExcept_keeps _) fun _ => ?_
  refine Ends.bind (Keeps.forM fun entry _ => liftExcept_keeps _) fun _ => ?_
  refine Ends.bind (tool_keeps hI _) fun _ => ?_
  refine Ends.foldlM_done (J := fun done outputs => J outputs ∧ ∀ e ∈ done, Linked outputs e)
    ⟨hl, by simp⟩ fun done outputs entry _ hdone => ?_
  exact buildEntry_links hH hB hI hJ frontend entry hdone

theorem buildTailwinds_links {entries : List Entry} (hI : Guarded outDir I) (hJ : Grows H J)
    (hl : J outputs ∧ ∀ e ∈ entries, Linked outputs e) :
    Ends (fun d : Disk => I d.tree) (buildTailwinds H b manifestDir outDir outputs)
      (fun outputs d => (J outputs ∧ ∀ e ∈ entries, Linked outputs e) ∧ I d.tree)
      (fun d => I d.tree) := by
  unfold buildTailwinds
  refine Ends.bind (R := fun _ (d : Disk) => I d.tree) ?_ fun validated => ?_
  · refine (Ends.foldlM (J := fun _ => True) trivial fun css input _ _ => ?_).weaken
      (fun _ h => h) (fun _ _ h => h.2) fun _ h => h
    refine Ends.bind (validateTailwind_keeps input) fun path => ?_
    exact .of_pure fun _ h => ⟨trivial, h⟩
  · refine Ends.bind (tool_keeps hI _) fun executable => ?_
    refine Ends.bind (watchDir_keeps _) fun _ => ?_
    refine Ends.foldlM hl fun outputs input _ hl => ?_
    unfold buildTailwind
    refine Ends.bind (tool_keeps hI _) fun output => ?_
    refine Ends.bind (liftExcept_keeps _) fun bytes => ?_
    refine Ends.bind addOutput_adds fun added => ?_
    refine Ends.assume fun ha => ?_
    exact .of_pure fun _ h => ⟨⟨hJ _ _ _ hl.1 ha, fun e he => (hl.2 e he).added ha⟩, h⟩

/-- What follows the static directory. -/
theorem collectRest_ends (hH : HexDigest H) (hB : Bundled H) (hI : Guarded outDir I)
    (hJ : Grows H J) (hstatic : J outputs) :
    Ends (fun d : Disk => I d.tree)
      (do
        let scripts ← (if b.entries = [] then pure outputs
          else buildEntries H b manifestDir outDir outputs)
        if b.tailwinds = [] then pure scripts
        else buildTailwinds H b manifestDir outDir scripts : Build (List AssetRecord))
      (fun outputs d => (J outputs ∧ ∀ e ∈ b.entries, Linked outputs e) ∧ I d.tree)
      (fun d => I d.tree) := by
  refine Ends.bind (R := fun outputs (d : Disk) =>
    (J outputs ∧ ∀ e ∈ b.entries, Linked outputs e) ∧ I d.tree) ?_ fun scripts => ?_
  · split
    · rename_i hnone
      exact .of_pure fun _ h => ⟨⟨hstatic, by simp [hnone]⟩, h⟩
    · exact buildEntries_links hH hB hI hJ hstatic
  · refine Ends.assume fun hscripts => ?_
    split
    · exact .of_pure fun _ h => ⟨hscripts, h⟩
    · exact buildTailwinds_links hI hJ hscripts

/-! ## Builds -/

/-- The outputs of the static directory in a build from `d`. -/
def StaticPart (H : Host) (b : AssetsBuilder) (manifestDir outDir : Path) (d : Disk)
    (static : List AssetRecord) : Prop :=
  ∃ u d₁ d₂, outcome (clearOutputs outDir) d = (.ok u, d₁) ∧
    outcome (buildStatic H b manifestDir outDir) d₁ = (.ok static, d₂)

/-- What a successful build has collected and written. -/
structure Finished (H : Host) (b : AssetsBuilder) (manifestDir outDir : Path) (d d' : Disk)
    (outputs : List AssetRecord) : Prop where
  lists : Lists H outputs
  linked : ∀ e ∈ b.entries, Linked outputs e
  static : ∃ static, StaticPart H b manifestDir outDir d static ∧ static <+: outputs
  published : Published outDir outputs d'.tree

theorem buildIn_finished (hH : HexDigest H) (hB : Bundled H)
    (h : outcome (buildIn H b manifestDir outDir) d = (.ok outputs, d')) :
    Finished H b manifestDir outDir d d' outputs := by
  obtain ⟨u, d₁, hclear, hrest⟩ := bind_ok h
  have hpublished := (rest_ends (M := fun _ => True)).ok d₁ outputs d' trivial hrest
  obtain ⟨collected, d₂, hcollect, hpublish⟩ := bind_ok hrest
  obtain ⟨_, d₃, _, hpure⟩ := bind_ok hpublish
  cases hpure
  obtain ⟨static, d₄, hstatic, hfollow⟩ := bind_ok hcollect
  have hI : Guarded outDir fun _ => True := fun _ _ _ _ => trivial
  have hlists := (buildStatic_lists (I := fun _ => True)).ok d₁ static d₄ trivial hstatic
  have hall := (collectRest_ends hH hB hI (grows_lists H) hlists.1).ok d₄ outputs d₂ trivial hfollow
  have hprefix := (collectRest_ends hH hB hI (grows_static H static)
    (List.prefix_refl static)).ok d₄ outputs d₂ trivial hfollow
  exact ⟨hall.1.1, hall.1.2, ⟨static, ⟨u, d₁, d₄, hclear, hstatic⟩, hprefix.1.1⟩, hpublished⟩

/-! ## Manifests -/

/-- The manifest is embedded after a successful build from `d`. -/
structure BuiltBy (H : Host) (b : AssetsBuilder) (manifestDir outDir : Path) (d : Disk)
    (m : Manifest) : Prop where
  hex : HexDigest H
  bundled : Bundled H
  ran : ∃ outputs d', outcome (buildIn H b manifestDir outDir) d = (.ok outputs, d') ∧
    includeAssets d'.tree outDir m.owner = some m

def Built (m : Manifest) : Prop := ∃ H b manifestDir outDir d, BuiltBy H b manifestDir outDir d m

variable {m m' : Manifest}

theorem BuiltBy.finished (h : BuiltBy H b manifestDir outDir d m) :
    ∃ outputs d', Finished H b manifestDir outDir d d' outputs ∧
      m.entries = outputs.map AssetRecord.asset := by
  obtain ⟨outputs, d', hran, hembed⟩ := h.ran
  have hfinished := buildIn_finished h.hex h.bundled hran
  rw [includeAssets_published m.owner hfinished.published, Option.some.injEq] at hembed
  exact ⟨outputs, d', hfinished, by rw [← hembed]⟩

theorem BuiltBy.distinct (h : BuiltBy H b manifestDir outDir d m) :
    (m.entries.map Asset.logicalName).Nodup ∧ (m.entries.map Asset.hashedName).Nodup := by
  obtain ⟨outputs, d', hfinished, hentries⟩ := h.finished
  rw [hentries, List.map_map, List.map_map]
  exact ⟨hfinished.lists.logical, hfinished.lists.hashed⟩

theorem BuiltBy.named (h : BuiltBy H b manifestDir outDir d m) :
    ∀ asset ∈ m.entries, Legal asset.hashedName := by
  intro asset hasset
  obtain ⟨outputs, d', hfinished, hentries⟩ := h.finished
  rw [hentries] at hasset
  obtain ⟨r, hr, rfl⟩ := List.mem_map.1 hasset
  obtain ⟨hlegal, hname⟩ := hfinished.lists.named r hr
  exact hname.legal h.hex hlegal

/-- A logical name leads to its own entry. -/
theorem assetUrl_of_mem (hd : (m.entries.map Asset.logicalName).Nodup) {asset : Asset}
    (hasset : asset ∈ m.entries) :
    m.assetUrl asset.logicalName = .ok (hashedUrl asset.hashedName) := by
  unfold Manifest.assetUrl
  cases hfind : m.entries.find? fun a => a.logicalName == asset.logicalName with
  | none =>
      have hno := List.find?_eq_none.1 hfind asset hasset
      simp at hno
  | some first =>
      have hname : first.logicalName = asset.logicalName := by
        simpa using List.find?_some hfind
      rw [List.inj_on_of_nodup_map hd (List.mem_of_find?_eq_some hfind) hasset hname]

theorem BuiltBy.scripts (h : BuiltBy H b manifestDir outDir d m) :
    ∀ entry ∈ b.entries, ∃ js ∈ m.entries, ∃ map ∈ m.entries,
      js.logicalName = entry.logicalName ∧ map.logicalName = entry.logicalName ++ ".map" ∧
      ∃ text url base, decodeUtf8 js.bytes = some text ∧ sourceMappingUrl text = some url ∧
        m.assetUrl js.logicalName = .ok base ∧
        m.assetUrl map.logicalName = .ok (resolveUrl base url) := by
  intro entry hentry
  have hd := h.distinct.1
  obtain ⟨outputs, d', hfinished, hentries⟩ := h.finished
  obtain ⟨js, hjs, map, hmap, hjsName, hmapName, text, url, htext, hurl, hresolve⟩ :=
    hfinished.linked entry hentry
  have hjs' : js.asset ∈ m.entries := by
    rw [hentries]
    exact List.mem_map_of_mem hjs
  have hmap' : map.asset ∈ m.entries := by
    rw [hentries]
    exact List.mem_map_of_mem hmap
  refine ⟨js.asset, hjs', map.asset, hmap', hjsName, hmapName, text, url, _, htext, hurl,
    assetUrl_of_mem hd hjs', ?_⟩
  rw [assetUrl_of_mem hd hmap']
  exact congrArg Except.ok hresolve.symm

/-- The static files make the same first entries, however directories are listed. -/
theorem BuiltBy.static {readDir : Tree → Path → List DirEntry}
    (hperm : ∀ t p, (readDir t p).Perm (H.readDir t p))
    (h : BuiltBy H b manifestDir outDir d m)
    (h' : BuiltBy (H.listed readDir) b manifestDir outDir d m') :
    ∃ static, StaticPart H b manifestDir outDir d static ∧
      StaticPart (H.listed readDir) b manifestDir outDir d static ∧
      static.map AssetRecord.asset <+: m.entries ∧ static.map AssetRecord.asset <+: m'.entries := by
  obtain ⟨outputs, d₁, hfinished, hentries⟩ := h.finished
  obtain ⟨outputs', d₁', hfinished', hentries'⟩ := h'.finished
  obtain ⟨static, ⟨u, d₂, d₃, hclear, hstatic⟩, hprefix⟩ := hfinished.static
  obtain ⟨static', ⟨u', d₂', d₃', hclear', hstatic'⟩, hprefix'⟩ := hfinished'.static
  rw [hclear] at hclear'
  cases hclear'
  obtain rfl : static' = static := buildStatic_listed hperm hstatic hstatic'
  rw [hentries, hentries']
  exact ⟨static', ⟨u, d₂, d₃, hclear, hstatic⟩, ⟨u, d₂, d₃', hclear, hstatic'⟩,
    hprefix.map _, hprefix'.map _⟩

theorem named_of_built {manifests : List Manifest} (h : ∀ m ∈ manifests, Built m) :
    Named manifests := by
  intro m hm asset hasset
  obtain ⟨H, b, manifestDir, outDir, d, hbuilt⟩ := h m hm
  exact hbuilt.named asset hasset

/-- Every entry of a built manifest is served at its URL with its bytes, every other
path under `/assets` is not found, every script names its own map, and the static part
of a manifest does not depend on the order of directories. -/
theorem served_from_build {R : Type} (A : Axum R) (hA : A.Documented) :
    (∀ manifests : List Manifest, (∀ m ∈ manifests, Built m) →
      ∃ result, router A manifests = some result ∧
        ((∃ routes, result = .ok routes) ↔ (servedUrls manifests).Nodup) ∧
        ∀ routes, result = .ok routes →
          (∀ m ∈ manifests, ∀ asset ∈ m.entries, ∃ url,
            m.assetUrl asset.logicalName = .ok url ∧ (A.serve routes url).status = 200 ∧
              (A.serve routes url).body = asset.bytes) ∧
          ∀ path, UnderAssets path → path ∉ servedUrls manifests →
            (A.serve routes path).status = 404) ∧
    ∀ H b manifestDir outDir d m, BuiltBy H b manifestDir outDir d m →
      (m.entries.map Asset.logicalName).Nodup ∧ (m.entries.map Asset.hashedName).Nodup ∧
      (∀ entry ∈ b.entries, ∃ js ∈ m.entries, ∃ map ∈ m.entries,
        js.logicalName = entry.logicalName ∧ map.logicalName = entry.logicalName ++ ".map" ∧
        ∃ text url base, decodeUtf8 js.bytes = some text ∧ sourceMappingUrl text = some url ∧
          m.assetUrl js.logicalName = .ok base ∧
          m.assetUrl map.logicalName = .ok (resolveUrl base url)) ∧
      ∀ readDir m', (∀ t p, (readDir t p).Perm (H.readDir t p)) →
        BuiltBy (H.listed readDir) b manifestDir outDir d m' →
        ∃ static, StaticPart H b manifestDir outDir d static ∧
          StaticPart (H.listed readDir) b manifestDir outDir d static ∧
          static.map AssetRecord.asset <+: m.entries ∧
          static.map AssetRecord.asset <+: m'.entries := by
  constructor
  · intro manifests hbuilt
    have hnamed := named_of_built hbuilt
    obtain ⟨result, hrun, hiff⟩ := router_returns hA hnamed
    refine ⟨result, hrun, hiff, ?_⟩
    rintro routes rfl
    constructor
    · intro m hm asset hasset
      obtain ⟨H, b, manifestDir, outDir, d, hb⟩ := hbuilt m hm
      refine ⟨_, assetUrl_of_mem hb.distinct.1 hasset, ?_⟩
      have hr : (⟨hashedUrl asset.hashedName, asset, immutableCache⟩ : Registration) ∈
          registrations manifests := by
        simp only [registrations, List.mem_flatMap]
        exact ⟨m, hm, asset, hasset, List.mem_cons_self ..⟩
      have hserve := router_serves hA hnamed hrun hr
      dsimp only at hserve
      rw [hserve]
      exact ⟨rfl, rfl⟩
    · intro path hpath hother
      rw [router_notFound hA hnamed hrun hpath hother]
      rfl
  · intro H b manifestDir outDir d m hb
    exact ⟨hb.distinct.1, hb.distinct.2, hb.scripts, fun readDir m' hperm hb' =>
      hb.static hperm hb'⟩

/-! ## A build and a router -/

/-- A router that keeps its routes in a list. -/
def isWildcard (pattern : String) : Bool := "\x7b*rest\x7d".toList.isSuffixOf pattern.toList

def takesRest (pattern path : String) : Bool :=
  (pattern.toList.dropLast.dropLast.dropLast.dropLast.dropLast.dropLast.dropLast).isPrefixOf
    path.toList

def listRouter : Axum (List (String × MethodRouter)) where
  new := []
  route := fun rs path m => if path ∈ rs.map Prod.fst then none else some (rs ++ [(path, m)])
  serve := fun rs path =>
    match rs.find? fun r => r.1 == path && !isWildcard r.1 with
    | some r => r.2.answer
    | none =>
        match rs.find? fun r => isWildcard r.1 && takesRest r.1 path with
        | some r => r.2.answer
        | none => notFound

theorem listRouter_foldlM (rs before routes : List (String × MethodRouter)) (hd : (before.map Prod.fst).Nodup) :
    rs.foldlM (fun router r => listRouter.route router r.1 r.2) before = some routes ↔
      routes = before ++ rs ∧ ((before ++ rs).map Prod.fst).Nodup := by
  induction rs generalizing before with
  | nil => simp [hd, eq_comm]
  | cons r rs ih =>
      rw [List.foldlM_cons, Option.bind_eq_bind]
      by_cases hmem : r.1 ∈ before.map Prod.fst
      · have hnone : listRouter.route before r.1 r.2 = none := if_pos hmem
        rw [hnone]
        simp only [Option.bind_none, reduceCtorEq, false_iff, not_and]
        intro _ hnodup
        rw [List.map_append, List.nodup_append] at hnodup
        exact hnodup.2.2 r.1 hmem r.1 (by simp) rfl
      · have hsome : listRouter.route before r.1 r.2 = some (before ++ [r]) := if_neg hmem
        have hd' : ((before ++ [r]).map Prod.fst).Nodup :=
          nodup_concat hd fun y hy heq => hmem (heq ▸ List.mem_map_of_mem hy)
        rw [hsome, Option.bind_some, ih (before ++ [r]) hd']
        simp

theorem listRouter_routes {rs routes : List (String × MethodRouter)} :
    listRouter.routes rs = some routes ↔ routes = rs ∧ (rs.map Prod.fst).Nodup := by
  have h := listRouter_foldlM rs [] routes List.nodup_nil
  simpa [Axum.routes, listRouter] using h

theorem isWildcard_wildcard (lead : String) : isWildcard (wildcard lead) = true := by
  rw [isWildcard, wildcard, List.isSuffixOf_iff_suffix, String.toList_append]
  exact List.suffix_append ..

theorem not_isWildcard {path : String} (h : Plain path) : isWildcard path = false := by
  rw [Bool.eq_false_iff]
  intro hwild
  rw [isWildcard, List.isSuffixOf_iff_suffix] at hwild
  have hbrace := h.2 '\x7b' (hwild.subset (by decide))
  revert hbrace
  decide

theorem find_of_unique {rs : List (String × MethodRouter)} {p : String × MethodRouter → Bool}
    {r : String × MethodRouter} (hd : (rs.map Prod.fst).Nodup) (hr : r ∈ rs) (hp : p r = true)
    (hkey : ∀ r' ∈ rs, p r' = true → r'.1 = r.1) : rs.find? p = some r := by
  cases hfind : rs.find? p with
  | none =>
      have hno := List.find?_eq_none.1 hfind r hr
      exact absurd hp hno
  | some found =>
      have hmem := List.mem_of_find?_eq_some hfind
      rw [List.inj_on_of_nodup_map hd hmem hr (hkey found hmem (List.find?_some hfind))]

theorem listRouter_documented : listRouter.Documented where
  accepts := fun lead rs _ _ _ hd => ⟨rs, listRouter_routes.2 ⟨rfl, hd⟩⟩
  plain := by
    intro rs routes path m hrun hd hplain hmem
    obtain ⟨rfl, -⟩ := listRouter_routes.1 hrun
    have hfind := find_of_unique (p := fun r => r.1 == path && !isWildcard r.1) hd hmem
      (by simp [not_isWildcard hplain]) (fun r' _ hp => by simp_all)
    change (match routes.find? fun r => r.1 == path && !isWildcard r.1 with
      | some r => r.2.answer
      | none => _) = _
    rw [hfind]
  wildcard := by
    intro lead rs routes rest m hrun hd hlead _ hmixed hmem hrest hother
    obtain ⟨rfl, -⟩ := listRouter_routes.1 hrun
    have hnone : routes.find? (fun r => r.1 == lead ++ rest && !isWildcard r.1) = none := by
      rw [List.find?_eq_none]
      intro r hr hp
      rw [Bool.and_eq_true, beq_iff_eq, Bool.not_eq_true'] at hp
      obtain hplain | hwild := hmixed r hr
      · rw [hp.1] at hplain
        exact hother ⟨hplain, hp.1 ▸ List.mem_map_of_mem hr⟩
      · rw [hwild, isWildcard_wildcard] at hp
        cases hp.2
    have htakes : takesRest (wildcard lead) (lead ++ rest) = true := by
      have hdrop : (wildcard lead).toList.dropLast.dropLast.dropLast.dropLast.dropLast.dropLast.dropLast =
          lead.toList := by
        have hseven : (wildcard lead).toList = lead.toList ++ ['\x7b', '*', 'r', 'e', 's', 't', '\x7d'] := by
          rw [wildcard, String.toList_append]
          rfl
        rw [hseven]
        simp
      rw [takesRest, hdrop, List.isPrefixOf_iff_prefix, String.toList_append]
      exact List.prefix_append ..
    have hfind := find_of_unique (p := fun r => isWildcard r.1 && takesRest r.1 (lead ++ rest)) hd
      hmem (by simp [isWildcard_wildcard, htakes]) (by
        intro r' hr' hp
        rw [Bool.and_eq_true] at hp
        obtain hplain | hwild := hmixed r' hr'
        · rw [not_isWildcard hplain] at hp
          cases hp.1
        · exact hwild)
    change (match routes.find? fun r : String × MethodRouter =>
        r.1 == lead ++ rest && !isWildcard r.1 with
      | some r => r.2.answer
      | none =>
          match routes.find? fun r : String × MethodRouter =>
            isWildcard r.1 && takesRest r.1 (lead ++ rest) with
          | some r => r.2.answer
          | none => notFound) = _
    rw [hnone, hfind]

/-- A host with one static file. -/
def Host.oneFile : Host := Host.bare.listed fun _ _ => [⟨"robots.txt", true⟩]

def oneFileBuilder : AssetsBuilder := ⟨some (.relative ["static"]), .relative ["frontend"], [], []⟩

def oneFileDisk : Disk where
  tree := fun p =>
    if p = [] ∨ p = ["app"] ∨ p = ["app", "static"] ∨ p = ["out"] then some .dir
    else if p = ["app", "static", "robots.txt"] then some (.file [104, 105])
    else none
  faults := fun _ => none
  operations := 0

def oneFileManifest : Manifest :=
  ⟨"app", [⟨"robots.txt", "robots.ba7816bf.txt", "application/octet-stream", [104, 105]⟩]⟩

theorem oneFile_built :
    BuiltBy Host.oneFile oneFileBuilder ["app"] ["out"] oneFileDisk oneFileManifest where
  hex := by
    intro bytes
    have hall : ("ba7816bf".toList.all fun c => "0123456789abcdef".toList.contains c) = true := by
      decide
    have hlength : 8 ≤ "ba7816bf".length := by decide
    refine ⟨hlength, fun c hc => ?_⟩
    simpa using List.all_eq_true.1 hall c hc
  bundled := by
    intro entry frontend t bundle t' h
    cases h
  ran := by
    cases hrun : outcome (buildIn Host.oneFile oneFileBuilder ["app"] ["out"]) oneFileDisk with
    | mk result d' =>
        have hok : (outcome (buildIn Host.oneFile oneFileBuilder ["app"] ["out"])
            oneFileDisk).1.isOk = true := by decide +kernel
        have hembed : includeAssets (outcome (buildIn Host.oneFile oneFileBuilder ["app"] ["out"])
            oneFileDisk).2.tree ["out"] "app" = some oneFileManifest := by decide +kernel
        rw [hrun] at hok hembed
        cases result with
        | error e => cases hok
        | ok outputs => exact ⟨outputs, d', rfl, hembed⟩

theorem robots_served : ∃ routes, router listRouter [oneFileManifest] = some (.ok routes) ∧
    (listRouter.serve routes "/assets/robots.ba7816bf.txt").body = [104, 105] ∧
    (listRouter.serve routes "/assets/robots.txt").status = 404 ∧
    (oneFileManifest.entries.map Asset.hashedName).Nodup := by
  obtain ⟨hserved, hbuilds⟩ := served_from_build listRouter listRouter_documented
  have hbuilt : ∀ m ∈ [oneFileManifest], Built m := by
    intro m hm
    rw [List.mem_singleton.1 hm]
    exact ⟨_, _, _, _, _, oneFile_built⟩
  obtain ⟨result, hrun, hiff, hok⟩ := hserved [oneFileManifest] hbuilt
  obtain ⟨routes, rfl⟩ := hiff.2 (by decide)
  obtain ⟨hentries, hrest⟩ := hok routes rfl
  refine ⟨routes, hrun, ?_, ?_, (hbuilds _ _ _ _ _ _ oneFile_built).2.1⟩
  · obtain ⟨url, hurl, _, hbody⟩ := hentries oneFileManifest (by simp) _
      (List.mem_cons_self ..)
    cases hurl
    exact hbody
  · exact hrest "/assets/robots.txt" (.inr ⟨"robots.txt", rfl⟩) (by decide)

end Cja.Assets
