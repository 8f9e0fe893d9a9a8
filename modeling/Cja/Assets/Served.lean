import Cja.Assets.Names
import Cja.Lib.Collect

/-!
# Serving manifests

`router` registers the URL of every entry, and a root URL for two well-known files,
and refuses a URL that is registered already. What it registers becomes the routes
of an axum router, with three more that answer 404 to the rest of `/assets`.
-/
namespace Cja.Assets
open FileSystem Collect

/-- One generated output embedded in the consuming binary. -/
structure Asset where
  logicalName : String
  hashedName : String
  contentType : String
  bytes : Bytes
deriving Repr, DecidableEq

structure Manifest where
  owner : String
  entries : List Asset
deriving Repr, DecidableEq

def hashedUrl (hashedName : String) : String := "/assets/" ++ hashedName

/-- The error is the text of a panic. -/
def Manifest.assetUrl (m : Manifest) (logicalName : String) : Except String String :=
  match m.entries.find? fun asset => asset.logicalName == logicalName with
  | some asset => .ok (hashedUrl asset.hashedName)
  | none => .error ("unknown asset: " ++ logicalName)

inductive AssetError where
  | collision (url firstOwner firstLogicalName secondOwner secondLogicalName : String)
deriving Repr, DecidableEq

def stableRootFiles : List String := ["favicon.ico", "robots.txt"]

def immutableCache : String := "public, max-age=31536000, immutable"

def stableCache : String := "public, max-age=3600"

/-! ## Registration -/

structure Registration where
  url : String
  asset : Asset
  cache : String

/-- The map `paths` of `router`, as a list of what was inserted, and its registrations. -/
structure Registered where
  paths : List (String × String × String)
  registrations : List Registration

def register (paths : List (String × String × String)) (url owner logicalName : String) :
    Except AssetError (List (String × String × String)) :=
  match paths.lookup url with
  | some (firstOwner, firstLogicalName) =>
      .error (.collision url firstOwner firstLogicalName owner logicalName)
  | none => .ok ((url, owner, logicalName) :: paths)

/-- `register`, and the push that follows it. -/
def registerUrl (owner : String) (acc : Registered) (r : Registration) :
    Except AssetError Registered := do
  let paths ← register acc.paths r.url owner r.asset.logicalName
  pure ⟨paths, acc.registrations ++ [r]⟩

/-- The URLs of an entry. -/
def Asset.registrations (asset : Asset) : List Registration :=
  ⟨hashedUrl asset.hashedName, asset, immutableCache⟩ ::
    if stableRootFiles.contains asset.logicalName then
      [⟨"/" ++ asset.logicalName, asset, stableCache⟩]
    else []

def registerManifest (acc : Registered) (m : Manifest) : Except AssetError Registered :=
  m.entries.foldlM (fun acc asset => asset.registrations.foldlM (registerUrl m.owner) acc) acc

def registerAll (manifests : List Manifest) : Except AssetError Registered :=
  manifests.foldlM registerManifest ⟨[], []⟩

/-- What the manifests register, and the URLs the router would serve. -/
def registrations (manifests : List Manifest) : List Registration :=
  manifests.flatMap fun m => m.entries.flatMap Asset.registrations

def servedUrls (manifests : List Manifest) : List String :=
  (registrations manifests).map Registration.url

/-- The map holds the URLs of the registrations, and these are distinct. -/
structure Registered.Sound (acc : Registered) : Prop where
  paths : ∀ url, acc.paths.lookup url = none ↔ url ∉ acc.registrations.map Registration.url
  distinct : (acc.registrations.map Registration.url).Nodup

theorem registerUrl_collects (owner : String) :
    Collects Registered.Sound (registerUrl owner) Registered.registrations (fun r => [r])
      Registration.url where
  ok := by
    intro acc r acc' hs h
    unfold registerUrl register at h
    split at h
    · cases h
    · rename_i hnone
      cases h
      have hnew := (hs.paths r.url).1 hnone
      refine ⟨⟨fun url => ?_, ?_⟩, rfl⟩
      · have hold := hs.paths url
        rw [List.lookup_cons, List.map_append, List.mem_append, not_or]
        by_cases hurl : url = r.url
        · subst hurl
          simp
        · rw [beq_false_of_ne hurl]
          simp [hold, hurl]
      · rw [List.map_append, List.nodup_append]
        refine ⟨hs.distinct, List.nodup_singleton _, fun a ha b hb => ?_⟩
        rintro rfl
        rw [List.map_cons, List.map_nil, List.mem_singleton] at hb
        exact hnew (hb ▸ ha)
  fresh := by
    intro acc r hs
    have hlookup := hs.paths r.url
    have hnodup : ((acc.registrations ++ [r]).map Registration.url).Nodup ↔
        r.url ∉ acc.registrations.map Registration.url := by
      rw [List.map_append, List.nodup_append]
      simp only [hs.distinct, List.map_cons, List.map_nil, List.nodup_singleton,
        List.mem_singleton, true_and, forall_eq]
      exact ⟨fun h hmem => h _ hmem rfl, fun h a ha heq => h (heq ▸ ha)⟩
    rw [hnodup, ← hlookup]
    unfold registerUrl register
    cases hfound : acc.paths.lookup r.url with
    | none => exact ⟨fun _ => rfl, fun _ => ⟨_, rfl⟩⟩
    | some first =>
        constructor
        · rintro ⟨acc', h⟩
          cases h
        · intro h
          cases h
  distinct := fun acc hs => hs.distinct

theorem registerAsset_collects (owner : String) :
    Collects Registered.Sound
      (fun acc (asset : Asset) => asset.registrations.foldlM (registerUrl owner) acc)
      Registered.registrations Asset.registrations Registration.url := by
  have hloop := (registerUrl_collects owner).foldlM.comap Asset.registrations
  simpa using hloop

theorem registerManifest_collects :
    Collects Registered.Sound registerManifest Registered.registrations
      (fun m => m.entries.flatMap Asset.registrations) Registration.url where
  ok := fun acc m => (registerAsset_collects m.owner).foldlM.ok acc m.entries
  fresh := fun acc m => (registerAsset_collects m.owner).foldlM.fresh acc m.entries
  distinct := fun _ hs => hs.distinct

theorem registered_empty : Registered.Sound ⟨[], []⟩ where
  paths := by simp
  distinct := List.nodup_nil

theorem registerAll_ok {manifests : List Manifest} {acc : Registered}
    (h : registerAll manifests = .ok acc) : acc.registrations = registrations manifests :=
  (registerManifest_collects.foldlM.ok _ _ _ registered_empty h).2

theorem registerAll_ok_iff (manifests : List Manifest) :
    (∃ acc, registerAll manifests = .ok acc) ↔ (servedUrls manifests).Nodup :=
  registerManifest_collects.foldlM.fresh _ manifests registered_empty

/-! ## The router -/

structure Response where
  status : ℕ
  contentType : Option String
  cacheControl : Option String
  body : Bytes
deriving Repr, DecidableEq

inductive MethodRouter where
  | get (response : Response)
  | any (response : Response)
deriving Repr, DecidableEq

/-- The answer to a GET. -/
def MethodRouter.answer : MethodRouter → Response
  | .get response | .any response => response

/-- axum's router. -/
structure Axum (R : Type) where
  new : R
  /-- `none` where it panics. -/
  route : R → String → MethodRouter → Option R
  /-- The answer to a GET of a path. -/
  serve : R → String → Response

variable {R : Type} (A : Axum R)

def Axum.routes (rs : List (String × MethodRouter)) : Option R :=
  rs.foldlM (fun router r => A.route router r.1 r.2) A.new

def notFound : Response := ⟨404, none, none, []⟩

def Registration.route (r : Registration) : String × MethodRouter :=
  (r.url, .get ⟨200, some r.asset.contentType, some r.cache, r.asset.bytes⟩)

/-- The routes that keep the rest of `/assets` from a fallback of the app. -/
def notFoundRoutes : List (String × MethodRouter) :=
  [("/assets", .any notFound), ("/assets/", .any notFound),
    ("/assets/" ++ "\x7b*rest\x7d", .any notFound)]

/-- `assets::router`; `none` where axum panics. -/
def router (manifests : List Manifest) : Option (Except AssetError R) :=
  match registerAll manifests with
  | .error e => some (.error e)
  | .ok acc => (A.routes (acc.registrations.map Registration.route ++ notFoundRoutes)).map .ok

/-- A route without captures. -/
def Plain (path : String) : Prop :=
  path.toList.head? = some '/' ∧ ∀ c ∈ path.toList, isNameChar c = true ∨ c = '/'

/-- A route that takes what follows `lead`. -/
def wildcard (lead : String) : String := lead ++ "\x7b*rest\x7d"

/-- Plain routes, and one that takes the rest. -/
def Mixed (lead : String) (rs : List (String × MethodRouter)) : Prop :=
  ∀ r ∈ rs, Plain r.1 ∨ r.1 = wildcard lead

/-- What axum documents: routes that do not overlap are accepted, a plain route takes
its own path, and a wildcard takes a longer path that no plain route takes. Of a path that
is given twice nothing is said, since axum merges its methods. -/
structure Axum.Documented : Prop where
  accepts : ∀ lead rs, Plain lead → lead.toList.getLast? = some '/' → Mixed lead rs →
    (rs.map Prod.fst).Nodup → ∃ router, A.routes rs = some router
  plain : ∀ rs router path m, A.routes rs = some router → (rs.map Prod.fst).Nodup →
    Plain path → (path, m) ∈ rs → A.serve router path = m.answer
  wildcard : ∀ lead rs router rest m, A.routes rs = some router → (rs.map Prod.fst).Nodup →
    Plain lead → lead.toList.getLast? = some '/' → Mixed lead rs → (wildcard lead, m) ∈ rs → rest ≠ "" →
    ¬ (Plain (lead ++ rest) ∧ lead ++ rest ∈ rs.map Prod.fst) →
    A.serve router (lead ++ rest) = m.answer

/-! ## What is served -/

variable {A} {manifests : List Manifest}

/-- Every entry has a legal hashed name. -/
def Named (manifests : List Manifest) : Prop :=
  ∀ m ∈ manifests, ∀ asset ∈ m.entries, Legal asset.hashedName

/-- A path under `/assets`. -/
def UnderAssets (path : String) : Prop := path = "/assets" ∨ ∃ rest, path = "/assets/" ++ rest

theorem hashedUrl_plain {hashedName : String} (h : Legal hashedName) :
    Plain (hashedUrl hashedName) := by
  have hlead : ("/assets/".toList.all fun c => isNameChar c || c == '/') = true := by decide
  rw [Plain, hashedUrl, String.toList_append]
  refine ⟨rfl, fun c hc => ?_⟩
  obtain hc | hc := List.mem_append.1 hc
  · have hone := List.all_eq_true.1 hlead c hc
    simpa using hone
  · exact h.chars c hc

theorem not_plain_wildcard (lead : String) : ¬ Plain (wildcard lead) := by
  intro h
  have hbrace := h.2 '\x7b' (by simp [wildcard])
  revert hbrace
  decide

theorem registration_cases {asset : Asset} {r : Registration} (h : r ∈ asset.registrations) :
    r.asset = asset ∧ (r.url = hashedUrl asset.hashedName ∨ r.url = "/favicon.ico" ∨
      r.url = "/robots.txt") := by
  unfold Asset.registrations at h
  obtain rfl | h := List.mem_cons.1 h
  · exact ⟨rfl, .inl rfl⟩
  · split at h
    · rename_i hstable
      obtain rfl := List.mem_singleton.1 h
      simp only [stableRootFiles, List.contains_eq_mem, List.mem_cons, List.not_mem_nil, or_false,
        decide_eq_true_eq] at hstable
      refine ⟨rfl, .inr ?_⟩
      obtain hname | hname := hstable
      · exact .inl (by rw [hname]; rfl)
      · exact .inr (by rw [hname]; rfl)
    · cases h

theorem plain_of_check {path : String} (h : (path.toList.head? == some '/' &&
    path.toList.all fun c => isNameChar c || c == '/') = true) : Plain path := by
  rw [Bool.and_eq_true, beq_iff_eq, List.all_eq_true] at h
  exact ⟨h.1, fun c hc => by simpa using h.2 c hc⟩

theorem registration_plain {asset : Asset} {r : Registration} (hlegal : Legal asset.hashedName)
    (h : r ∈ asset.registrations) : Plain r.url := by
  obtain ⟨_, hurl | hurl | hurl⟩ := registration_cases h
  · rw [hurl]
    exact hashedUrl_plain hlegal
  · rw [hurl]
    exact plain_of_check (by decide)
  · rw [hurl]
    exact plain_of_check (by decide)

theorem append_ne_assets (rest : String) : "/assets/" ++ rest ≠ "/assets" := by
  intro h
  have hlength := congrArg String.length h
  rw [String.length_append] at hlength
  have hlead : "/assets/".length = 8 := by decide
  have hshort : "/assets".length = 7 := by decide
  omega

/-- The URLs of an entry are no routes that answer 404. -/
theorem registration_fresh {asset : Asset} {r : Registration} (hlegal : Legal asset.hashedName)
    (h : r ∈ asset.registrations) : r.url ∉ notFoundRoutes.map Prod.fst := by
  intro hmem
  have hplain := registration_plain hlegal h
  simp only [notFoundRoutes, List.map_cons, List.map_nil, List.mem_cons, List.not_mem_nil,
    or_false] at hmem
  obtain hmem | hmem | hmem := hmem
  · obtain ⟨_, hurl | hurl | hurl⟩ := registration_cases h
    · exact append_ne_assets _ (hurl.symm.trans hmem)
    · rw [hurl] at hmem
      exact absurd hmem (by decide)
    · rw [hurl] at hmem
      exact absurd hmem (by decide)
  · obtain ⟨_, hurl | hurl | hurl⟩ := registration_cases h
    · rw [hurl, hashedUrl] at hmem
      have hempty : asset.hashedName = "" := by simpa using hmem
      exact hlegal.1 hempty
    · rw [hurl] at hmem
      exact absurd hmem (by decide)
    · rw [hurl] at hmem
      exact absurd hmem (by decide)
  · rw [hmem] at hplain
    exact not_plain_wildcard _ hplain

def allRoutes (manifests : List Manifest) : List (String × MethodRouter) :=
  (registrations manifests).map Registration.route ++ notFoundRoutes

theorem allRoutes_paths (manifests : List Manifest) :
    (allRoutes manifests).map Prod.fst =
      servedUrls manifests ++ ["/assets", "/assets/", wildcard "/assets/"] := by
  rw [allRoutes, List.map_append, List.map_map]
  rfl

theorem mem_registrations {r : Registration} (h : r ∈ registrations manifests) :
    ∃ m ∈ manifests, ∃ asset ∈ m.entries, r ∈ asset.registrations := by
  simpa only [registrations, List.mem_flatMap] using h

theorem lead_plain : Plain "/assets/" := plain_of_check (by decide)

theorem allRoutes_mixed (h : Named manifests) : Mixed "/assets/" (allRoutes manifests) := by
  intro r hr
  obtain hr | hr := List.mem_append.1 hr
  · obtain ⟨reg, hreg, rfl⟩ := List.mem_map.1 hr
    obtain ⟨m, hm, asset, hasset, hmem⟩ := mem_registrations hreg
    exact .inl (registration_plain (h m hm asset hasset) hmem)
  · simp only [notFoundRoutes, List.mem_cons, List.not_mem_nil, or_false] at hr
    obtain rfl | rfl | rfl := hr
    · exact .inl (plain_of_check (by decide))
    · exact .inl lead_plain
    · exact .inr rfl

theorem allRoutes_nodup (h : Named manifests) (hd : (servedUrls manifests).Nodup) :
    ((allRoutes manifests).map Prod.fst).Nodup := by
  rw [allRoutes, List.map_append, List.nodup_append]
  refine ⟨by rwa [List.map_map], by decide, ?_⟩
  rintro url hurl _ hother rfl
  rw [List.map_map] at hurl
  obtain ⟨r, hr, rfl⟩ := List.mem_map.1 hurl
  obtain ⟨m, hm, asset, hasset, hmem⟩ := mem_registrations hr
  exact registration_fresh (h m hm asset hasset) hmem hother

/-- The router does not panic, and refuses exactly the manifests with a URL twice. -/
theorem router_returns (hA : A.Documented) (h : Named manifests) :
    ∃ result, router A manifests = some result ∧
      ((∃ routes, result = .ok routes) ↔ (servedUrls manifests).Nodup) := by
  have hiff := registerAll_ok_iff manifests
  unfold router
  cases hall : registerAll manifests with
  | error e =>
      rw [hall] at hiff
      refine ⟨.error e, rfl, ?_⟩
      rw [← hiff]
      constructor
      · rintro ⟨routes, heq⟩
        cases heq
      · rintro ⟨acc, heq⟩
        cases heq
  | ok acc =>
      have hd := hiff.1 ⟨acc, hall⟩
      obtain ⟨routes, hroutes⟩ := hA.accepts "/assets/" (allRoutes manifests) lead_plain (by decide)
        (allRoutes_mixed h) (allRoutes_nodup h hd)
      refine ⟨.ok routes, ?_, fun _ => hd, fun _ => ⟨routes, rfl⟩⟩
      rw [allRoutes] at hroutes
      simp only [registerAll_ok hall, hroutes]
      rfl

theorem router_ok {routes : R} (h : router A manifests = some (.ok routes)) :
    A.routes (allRoutes manifests) = some routes ∧ (servedUrls manifests).Nodup := by
  unfold router at h
  split at h
  · cases h
  · rename_i acc hall
    rw [Option.map_eq_some_iff] at h
    obtain ⟨routes', hroutes, heq⟩ := h
    cases heq
    rw [registerAll_ok hall] at hroutes
    exact ⟨hroutes, (registerAll_ok_iff manifests).1 ⟨acc, hall⟩⟩

/-- What a registration serves. -/
theorem router_serves (hA : A.Documented) (h : Named manifests) {routes : R}
    (hrun : router A manifests = some (.ok routes)) {r : Registration}
    (hr : r ∈ registrations manifests) :
    A.serve routes r.url = ⟨200, some r.asset.contentType, some r.cache, r.asset.bytes⟩ := by
  obtain ⟨m, hm, asset, hasset, hmem⟩ := mem_registrations hr
  have hroute : r.route ∈ allRoutes manifests := List.mem_append_left _ (List.mem_map_of_mem hr)
  obtain ⟨hroutes, hd⟩ := router_ok hrun
  exact hA.plain _ _ _ r.route.2 hroutes (allRoutes_nodup h hd)
    (registration_plain (h m hm asset hasset) hmem) hroute

/-- The rest of `/assets` is not found. -/
theorem router_notFound (hA : A.Documented) (h : Named manifests) {routes : R}
    (hrun : router A manifests = some (.ok routes)) {path : String} (hpath : UnderAssets path)
    (hother : path ∉ servedUrls manifests) : A.serve routes path = notFound := by
  have hmem : ∀ r ∈ notFoundRoutes, r ∈ allRoutes manifests :=
    fun r hr => List.mem_append_right _ hr
  obtain ⟨hroutes, hd⟩ := router_ok hrun
  have hdistinct := allRoutes_nodup h hd
  obtain rfl | ⟨rest, rfl⟩ := hpath
  · exact hA.plain _ _ _ _ hroutes hdistinct (plain_of_check (by decide))
      (hmem ("/assets", .any notFound) (by simp [notFoundRoutes]))
  · by_cases hrest : rest = ""
    · subst hrest
      exact hA.plain _ _ _ _ hroutes hdistinct lead_plain
        (hmem ("/assets/", .any notFound) (by simp [notFoundRoutes]))
    · refine hA.wildcard _ _ _ _ _ hroutes hdistinct lead_plain (by decide) (allRoutes_mixed h)
        (hmem (wildcard "/assets/", .any notFound) (by simp [notFoundRoutes, wildcard])) hrest ?_
      rintro ⟨hplain, hin⟩
      rw [allRoutes_paths, List.mem_append] at hin
      obtain hin | hin := hin
      · exact hother hin
      · simp only [List.mem_cons, List.not_mem_nil, or_false] at hin
        obtain hin | hin | hin := hin
        · exact append_ne_assets _ hin
        · exact hrest (by simpa using hin)
        · rw [hin] at hplain
          exact not_plain_wildcard _ hplain

end Cja.Assets
