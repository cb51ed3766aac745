import EmbeddedGraphQL.Proofs.ExpectedFaults
import EmbeddedGraphQL.Proofs.Loading
import EmbeddedGraphQL.Proofs.StrictSymbols
import Mathlib

/-!
Falling back to the builtin schema. Whatever a configuration, a schema file and an answer hold, the
store ends up with the schema of the configured source or with the builtin one, as long as the parts
of the configuration and of the introspection result have the shapes that they are documented with.
A part of another shape is a fault, and the schema that was in use before stays in use.
-/
namespace EmbeddedGraphQL

namespace Json

/-- An object, unless nothing is given. -/
def IsPart (j : Json) : Prop := j.isGiven = true → ∃ members, j = .obj members

/-- A text, well formed or not, unless nothing is given. -/
def IsText (j : Json) : Prop := j.isGiven = true → ∃ points, j.points? = some points

end Json

/-- An address that the client takes: it names a host, unless there is no connection anyway. -/
def Endpoint.Takes (endpoint : Endpoint) (url : String) : Prop :=
  endpoint = .unreachable ∨ endpoint ≠ .refused ∧ Project.hasHost url = true

/-- A header that can be sent: ASCII text under an ASCII name. -/
def IsHeader (header : String × Json) : Prop :=
  Project.isAscii header.1 = true ∧ ∃ text, header.2 = .str text ∧ Project.isAscii text = true

namespace ProjectConfig

/-- The parts of a request for a schema that are read whether or not the request is made. -/
structure RequestShape (request : Json) : Prop where
  method : (request.under "method").IsText
  options : (request.under "options").IsPart
  headers : ((request.under "options").under "headers").IsPart

/-- A request that can be made: to an address that the client takes, with headers that can be
sent. -/
structure Askable (endpoint : Endpoint) (request : Json) : Prop where
  address : ∃ url, request.under "url" = .str url ∧ endpoint.Takes url
  headers : ∀ members, (request.under "options").under "headers" = .obj members →
    ∀ header ∈ members, IsHeader header

/-- The shape of a configuration. A request is made only where no file is named. -/
structure WellShaped (endpoint : Endpoint) (config : Json) : Prop where
  schema : (config.under "schema").IsPart
  file : ((config.under "schema").under "file").IsText
  fileName : ∀ points, ((config.under "schema").under "file").points? = some points →
    Project.IsName points
  request : ((config.under "schema").under "request").IsPart
  remote : (((config.under "schema").under "request").under "url").isGiven = true →
    RequestShape ((config.under "schema").under "request")
  askable : ((config.under "schema").under "file").isGiven = false →
    (((config.under "schema").under "request").under "url").isGiven = true →
      Askable endpoint ((config.under "schema").under "request")

end ProjectConfig

namespace Project
open ProjectConfig (WellShaped)

variable {around : Surroundings} {directory : String} {p : Project}

/-- The introspection result that an address answers with. -/
def answer? : Endpoint → Option Json
  | .answers status body => if status = 200 then Json.ofBytes? body else none
  | .refused | .unreachable => none

/-- The introspection result that a configuration leads to, with the name of its source. -/
def configuredResult? (around : Surroundings) (directory : String) (config : Json) :
    Option (Json × String) :=
  let schema := config.under "schema"
  let url := (schema.under "request").under "url"
  if (schema.under "file").isGiven then
    ((schema.under "file").str?.map (PathName.join directory)).bind fun path =>
      (fileObject? around.tree path).map (·, path)
  else if url.isGiven then url.str?.bind fun text => (answer? around.endpoint).map (·, text)
  else none

/-- The schema that a configuration offers, with its source, if one can be built. -/
def offeredBy? (around : Surroundings) (directory : String) (config : Json) :
    Option (Schema × String) :=
  (configuredResult? around directory config).bind fun (data, source) =>
    (Schema.ofIntrospection data).toOption.map (·, source)

/-- The schema that a directory offers. -/
def offered? (around : Surroundings) (directory : String) : Option (Schema × String) :=
  (fileObject? around.tree (configName directory)).bind (offeredBy? around directory)

/-- What the store has of an offered schema: the schema and its source, or the builtin schema. -/
def held : Option (Schema × String) → ActiveSchema × String
  | some (s, source) => (.loaded s, source)
  | none => (.builtin, "")

/-- What loading a directory relies on: a name that the system takes, and the shapes of the
configuration and of the introspection result. -/
structure Expected (around : Surroundings) (directory : String) : Prop where
  name : '\x00' ∉ directory.toList
  config : ∀ config, fileObject? around.tree (configName directory) = some config →
    WellShaped around.endpoint config
  result : ∀ config data source, fileObject? around.tree (configName directory) = some config →
    configuredResult? around directory config = some (data, source) →
      Introspection.SchemaShape ((data.under "data").under "__schema")

end Project

namespace ProjectConfig
open Json

variable {members : List (String × Json)} {config : Json} {endpoint : Endpoint}

/-- A part of an object is read as an object with the same members, which may be none. -/
theorem exists_part {key : String} (h : ((Json.obj members).under key).IsPart) :
    ∃ found, part (.obj members) key = .ok (.obj found) ∧
      (∀ key', (Json.obj found).under key' = ((Json.obj members).under key).under key') ∧
        (found = [] ∨ (Json.obj members).under key = .obj found) := by
  have hpart : part (.obj members) key = .ok
      (if ((Json.obj members).under key).isGiven then (Json.obj members).under key else .obj []) :=
    rfl
  rw [hpart]
  by_cases hgiven : ((Json.obj members).under key).isGiven = true
  · obtain ⟨found, hfound⟩ := h hgiven
    rw [if_pos hgiven, hfound]
    exact ⟨found, rfl, fun _ => rfl, Or.inr rfl⟩
  · rw [if_neg hgiven]
    refine ⟨[], rfl, ?_, Or.inl rfl⟩
    intro key'
    rw [Bool.not_eq_true] at hgiven
    rw [under_of_not_given hgiven]
    rfl

/-- A request of its shape makes a source with its address and its headers. -/
theorem exists_remoteSource {request : List (String × Json)} {url : Json}
    (h : RequestShape (.obj request)) :
    ∃ source, remoteSource (.obj request) url = .ok source ∧
      (source.headers = [] ∨
        ((Json.obj request).under "options").under "headers" = .obj source.headers) := by
  obtain ⟨options, hoptions, hunder, -⟩ := exists_part h.options
  have hpart := h.headers
  rw [← hunder] at hpart ⊢
  obtain ⟨found, hfound, -, hgiven⟩ := exists_part hpart
  have hmethod : member (.obj request) "method" = .ok ((Json.obj request).under "method") := rfl
  have htext := h.method
  have hheaders : headers (.obj found) = .ok found := rfl
  unfold remoteSource
  simp only [hoptions, hfound, hmethod, hheaders, bind, Except.bind, pure, Except.pure]
  generalize (Json.obj request).under "method" = method at htext
  cases method with
  | str text => exact ⟨_, rfl, hgiven⟩
  | unpaired points => exact ⟨_, rfl, hgiven⟩
  | _ =>
    dsimp only
    split_ifs with hgivenMethod
    · obtain ⟨points, hpoints⟩ := htext hgivenMethod
      cases hpoints
    · exact ⟨_, rfl, hgiven⟩

/-- A configuration of its shape is read, with the headers of its request. -/
theorem ofJson_of_wellShaped (h : WellShaped endpoint (.obj members)) :
    ∃ config, ofJson (.obj members) = .ok config ∧ ∀ source, config.remote = some source →
      source.headers = [] ∨
        ((((Json.obj members).under "schema").under "request").under "options").under "headers" =
          .obj source.headers := by
  obtain ⟨schema, hschema, hunder, -⟩ := exists_part h.schema
  have hrequestPart := h.request
  have hremote := h.remote
  rw [← hunder] at hrequestPart hremote ⊢
  obtain ⟨request, hrequest, hunder', -⟩ := exists_part hrequestPart
  have hshape : ((Json.obj request).under "url").isGiven = true → RequestShape (.obj request) := by
    intro hgiven
    rw [hunder'] at hgiven
    obtain ⟨hmethod, hoptions, hheaders⟩ := hremote hgiven
    rw [← hunder'] at hmethod hoptions hheaders
    exact ⟨hmethod, hoptions, hheaders⟩
  have hmember (found : List (String × Json)) (key : String) :
      member (.obj found) key = .ok ((Json.obj found).under key) := rfl
  rw [← hunder']
  unfold ofJson
  simp only [hschema, hrequest, hmember, bind, Except.bind, pure, Except.pure]
  by_cases hgiven : ((Json.obj request).under "url").isGiven = true
  · obtain ⟨source, hsource, hheaders⟩ :=
      @exists_remoteSource request ((Json.obj request).under "url") (hshape hgiven)
    simp only [if_pos hgiven, hsource, Except.map]
    refine ⟨_, rfl, ?_⟩
    intro source' heq
    cases heq
    exact hheaders
  · simp only [if_neg hgiven]
    exact ⟨_, rfl, nofun⟩

theorem member_spec {j value : Json} {key : String} (h : member j key = .ok value) :
    value = j.under key := by
  unfold member at h
  split at h
  next =>
    cases h
    rfl
  next => cases h

theorem part_spec {j value : Json} {key : String} (h : part j key = .ok value) (key' : String) :
    value.under key' = (j.under key).under key' := by
  unfold part at h
  obtain ⟨found, hfound, h⟩ := Symbol.exceptBind_eq_ok.mp h
  rw [member_spec hfound] at h
  cases h
  split_ifs with hgiven
  · rfl
  · rw [Bool.not_eq_true] at hgiven
    rw [under_of_not_given hgiven]
    rfl

theorem remoteSource_spec {request url : Json} {source : RemoteSource}
    (h : remoteSource request url = .ok source) : source.url = url := by
  unfold remoteSource at h
  obtain ⟨options, -, h⟩ := Symbol.exceptBind_eq_ok.mp h
  obtain ⟨given, -, h⟩ := Symbol.exceptBind_eq_ok.mp h
  dsimp only at h
  obtain ⟨method, h⟩ : ∃ method : String, (do
      let post ← member request "postIntrospectionQuery"
      let headers ← headers (← part options "headers")
      return (⟨url, Text.upper method, post.isGiven, headers⟩ : RemoteSource)) = .ok source := by
    split at h
    next s => exact ⟨_, h⟩
    next points => exact ⟨_, h⟩
    next =>
      split_ifs at h
      · cases h
      · exact ⟨_, h⟩
  obtain ⟨post, -, h⟩ := Symbol.exceptBind_eq_ok.mp h
  obtain ⟨part, -, h⟩ := Symbol.exceptBind_eq_ok.mp h
  obtain ⟨headers, -, h⟩ := Symbol.exceptBind_eq_ok.mp h
  cases h
  rfl

/-- What a configuration says that is read without a fault. -/
theorem ofJson_spec {data : Json} {config : ProjectConfig} (h : ofJson data = .ok config) :
    config.file = (data.under "schema").under "file" ∧
      match config.remote with
      | none => (((data.under "schema").under "request").under "url").isGiven = false
      | some source =>
        (((data.under "schema").under "request").under "url").isGiven = true ∧
          source.url = ((data.under "schema").under "request").under "url" := by
  unfold ofJson at h
  obtain ⟨schema, hschema, h⟩ := Symbol.exceptBind_eq_ok.mp h
  obtain ⟨request, hrequest, h⟩ := Symbol.exceptBind_eq_ok.mp h
  obtain ⟨url, hurl, h⟩ := Symbol.exceptBind_eq_ok.mp h
  have hurl' : ((data.under "schema").under "request").under "url" = url := by
    rw [member_spec hurl, part_spec hrequest, part_spec hschema]
  rw [hurl', ← part_spec hschema]
  dsimp only at h
  split_ifs at h with hgiven
  · obtain ⟨remote, hremote, h⟩ := Symbol.exceptBind_eq_ok.mp h
    obtain ⟨file, hfile, h⟩ := Symbol.exceptBind_eq_ok.mp h
    cases h
    cases hsource : remoteSource request url with
    | error fault =>
      rw [hsource] at hremote
      cases hremote
    | ok source =>
      rw [hsource] at hremote
      cases hremote
      exact ⟨member_spec hfile, hgiven, remoteSource_spec hsource⟩
  · obtain ⟨remote, hremote, h⟩ := Symbol.exceptBind_eq_ok.mp h
    obtain ⟨file, hfile, h⟩ := Symbol.exceptBind_eq_ok.mp h
    cases h
    cases hremote
    exact ⟨member_spec hfile, by simpa using hgiven⟩

end ProjectConfig

namespace Project
open ProjectConfig (WellShaped)

variable {around : Surroundings} {directory : String} {p : Project}

theorem isHeader_of_mem_insert {headers : List (String × Json)} {key : String} {value : Json}
    (h : ∀ header ∈ headers, IsHeader header) (hnew : IsHeader (key, value)) :
    ∀ header ∈ Json.insert headers key value, IsHeader header := by
  intro header hmem
  unfold Json.insert at hmem
  split_ifs at hmem
  · obtain ⟨old, hold, rfl⟩ := List.mem_map.mp hmem
    split_ifs
    · exact hnew
    · exact h old hold
  · rcases List.mem_append.mp hmem with hold | hlast
    · exact h header hold
    · rw [List.mem_singleton.mp hlast]
      exact hnew

theorem exists_headerTexts {headers : List (String × Json)}
    (h : ∀ header ∈ headers, IsHeader header) : ∃ texts, headerTexts headers = .ok texts := by
  induction headers with
  | nil => exact ⟨[], rfl⟩
  | cons header headers ih =>
    obtain ⟨⟨hname, text, htext, hascii⟩, hrest⟩ := List.forall_mem_cons.mp h
    obtain ⟨texts, htexts⟩ := ih hrest
    obtain ⟨name, value⟩ := header
    dsimp only at hname htext
    subst htext
    unfold headerTexts at htexts ⊢
    rw [List.mapM_cons, htexts]
    simp only [hname, hascii, Bool.and_self, if_true, bind, Except.bind, pure, Except.pure]
    exact ⟨_, rfl⟩

theorem exists_inquiry {source : RemoteSource} {url : String} (hurl : source.url = .str url)
    (h : ∀ header ∈ source.headers, IsHeader header) : ∃ asked, inquiry source = .ok asked := by
  have hall : ∀ header ∈ (if source.post then
      Json.insert source.headers "Content-Type" (.str "application/json") else source.headers),
      IsHeader header := by
    split_ifs
    · apply isHeader_of_mem_insert h
      exact ⟨by decide +kernel, _, rfl, by decide +kernel⟩
    · exact h
  obtain ⟨texts, htexts⟩ := exists_headerTexts hall
  unfold inquiry
  simp only [htexts, hurl, bind, Except.bind, pure, Except.pure]
  exact ⟨_, rfl⟩

theorem exists_members {tree : FileTree} {name : String} {data : Json}
    (h : fileObject? tree name = some data) : ∃ members, data = .obj members := by
  unfold fileObject? at h
  split at h
  next =>
    split at h
    next members _ =>
      cases h
      exact ⟨members, rfl⟩
    next => cases h
  next => cases h

/-- What is built of a result is the schema that it describes, or nothing. -/
theorem outcome_shown {found : Option Json} {source : String} {loading : Loading}
    (h : outcome found source = .ok loading) :
    loading.shown = held ((found.map (·, source)).bind fun (data, source) =>
      (Schema.ofIntrospection data).toOption.map (·, source)) := by
  unfold outcome build at h
  cases found with
  | none =>
    cases h
    rfl
  | some data =>
    dsimp only [Option.map_some, Option.bind_some] at h ⊢
    cases hs : Schema.ofIntrospection data with
    | ok s =>
      rw [hs] at h
      cases h
      rfl
    | error e =>
      rw [hs] at h
      dsimp only at h
      split_ifs at h
      cases h
      rfl

theorem schemaFile_eq {file : Json} {points : List CodePoint} (h : file.points? = some points) :
    schemaFile directory file = .ok (file.str?.map (PathName.join directory)) := by
  unfold schemaFile
  rw [h]

/-- What comes of a schema file is what is built of the object in it. -/
theorem fileOutcome_shown {tree : FileTree} {file : Json} {loading : Loading}
    (h : fileOutcome tree directory file = .ok loading) :
    loading.shown = held (((file.str?.map (PathName.join directory)).bind fun path =>
      (fileObject? tree path).map (·, path)).bind fun (data, source) =>
        (Schema.ofIntrospection data).toOption.map (·, source)) := by
  unfold fileOutcome schemaFile at h
  split at h
  next points _ =>
    cases hpath : file.str?.map (PathName.join directory) with
    | none =>
      rw [hpath] at h
      cases h
      rfl
    | some path =>
      rw [hpath] at h
      exact outcome_shown h
  next => cases h

theorem exists_outcome {found : Option Json} (source : String)
    (h : ∀ data e, found = some data → Schema.ofIntrospection data = .error e →
      e.isUnexpected = false) : ∃ loading, outcome found source = .ok loading := by
  unfold outcome build
  cases found with
  | none => exact ⟨.failed, rfl⟩
  | some data =>
    dsimp only
    cases hs : Schema.ofIntrospection data with
    | ok s => exact ⟨.loaded s source, rfl⟩
    | error e =>
      dsimp only
      rw [h data e rfl hs]
      exact ⟨.failed, rfl⟩

/-- What an address answers that the client takes. -/
theorem ofAnswer_eq {source : RemoteSource} {url : String} {endpoint : Endpoint}
    (hurl : source.url = .str url) (h : endpoint.Takes url) :
    ofAnswer source endpoint = outcome (answer? endpoint) url := by
  cases endpoint with
  | refused => exact absurd rfl (h.resolve_left nofun).1
  | unreachable => rfl
  | answers status body =>
    have hhost : hasHost url = true := (h.resolve_left nofun).2
    unfold ofAnswer answer? outcome
    dsimp only
    simp only [hurl, hhost]
    by_cases hstatus : status = 200
    · simp only [hstatus, if_true]
      cases Json.ofBytes? body <;> rfl
    · simp only [if_neg hstatus, if_pos hstatus]
      rfl

theorem text_of_inquiry {source : RemoteSource} {asked : Inquiry}
    (h : inquiry source = .ok asked) : ∃ url, source.url = .str url := by
  unfold inquiry at h
  dsimp only at h
  split at h
  next url hurl => exact ⟨url, hurl⟩
  next => cases h
  next => cases h

/-- An answer is made use of only at an address that the client takes. -/
theorem takes_of_ofAnswer {source : RemoteSource} {url : String} {endpoint : Endpoint}
    {loading : Loading} (hurl : source.url = .str url)
    (h : ofAnswer source endpoint = .ok loading) : endpoint.Takes url := by
  cases endpoint with
  | refused => cases h
  | unreachable => exact Or.inl rfl
  | answers status body =>
    refine Or.inr ⟨nofun, ?_⟩
    unfold ofAnswer at h
    simp only [hurl] at h
    split_ifs at h with hhost
    all_goals simpa using hhost

/-- A configuration that cannot be interpreted is a fault. -/
theorem read_of_fault {data : Json} {fault : ConfigFault}
    (hdata : fileObject? around.tree (configName directory) = some data)
    (hconfig : ProjectConfig.ofJson data = .error fault) :
    (read around directory).2 = .error (.config fault) := by
  obtain ⟨f, hf⟩ := exists_file hdata
  unfold configName at hdata hf
  unfold read
  simp only [hf, hdata, hconfig]

/-- A directory without a configuration that can be read is no project, or fails to load. -/
theorem read_of_none (hdata : fileObject? around.tree (configName directory) = none) :
    (read around directory).2 = .ok .unconfigured ∨ (read around directory).2 = .ok .failed := by
  by_cases hfile : ∃ f, around.tree.find (configName directory) = .file f
  · apply Or.inr
    obtain ⟨f, hf⟩ := hfile
    unfold configName at hdata hf
    unfold read
    simp only [hf, hdata]
  · rw [read_of_not_file fun f hf => hfile ⟨f, hf⟩]
    exact Or.inl rfl

section

variable {config : Json}

theorem configuredResult?_file
    (hgiven : ((config.under "schema").under "file").isGiven = true) :
    configuredResult? around directory config =
      (((config.under "schema").under "file").str?.map (PathName.join directory)).bind fun path =>
        (fileObject? around.tree path).map (·, path) := by
  unfold configuredResult?
  simp only [if_pos hgiven]

theorem configuredResult?_request {url : String}
    (hfile : ((config.under "schema").under "file").isGiven = false)
    (hurl : ((config.under "schema").under "request").under "url" = .str url)
    (hgiven : (((config.under "schema").under "request").under "url").isGiven = true) :
    configuredResult? around directory config = (answer? around.endpoint).map (·, url) := by
  unfold configuredResult?
  simp only [hfile, if_pos hgiven]
  rw [hurl]
  rfl

theorem configuredResult?_none
    (hfile : ((config.under "schema").under "file").isGiven = false)
    (hgiven : (((config.under "schema").under "request").under "url").isGiven = false) :
    configuredResult? around directory config = none := by
  unfold configuredResult?
  simp only [hfile, hgiven]
  rfl

end

/-- What loading a directory gives without a fault is what the directory offers. -/
theorem shown_of_read {loading : Loading} (h : (read around directory).2 = .ok loading) :
    loading.shown = held (offered? around directory) := by
  unfold offered?
  cases hdata : fileObject? around.tree (configName directory) with
  | none =>
    rcases read_of_none hdata with hread | hread
    · cases hread.symm.trans h
      rfl
    · cases hread.symm.trans h
      rfl
  | some data =>
    rw [Option.bind_some]
    unfold offeredBy?
    cases hconfig : ProjectConfig.ofJson data with
    | error fault =>
      rw [read_of_fault hdata hconfig] at h
      cases h
    | ok config =>
      obtain ⟨hfile, hremote⟩ := ProjectConfig.ofJson_spec hconfig
      rw [read_of_config hdata hconfig] at h
      split_ifs at h with hgiven
      · rw [hfile] at hgiven h
        rw [configuredResult?_file hgiven]
        exact fileOutcome_shown h
      · rw [hfile, Bool.not_eq_true] at hgiven
        cases hsource : config.remote with
        | none =>
          rw [hsource] at hremote h
          cases h
          rw [configuredResult?_none hgiven hremote]
          rfl
        | some source =>
          rw [hsource] at hremote h
          obtain ⟨hurlGiven, hurl⟩ := hremote
          obtain ⟨asked, hasked, h⟩ := Symbol.exceptBind_eq_ok.mp h
          obtain ⟨url, htext⟩ := text_of_inquiry hasked
          rw [ofAnswer_eq htext (takes_of_ofAnswer htext h)] at h
          rw [configuredResult?_request hgiven (hurl.symm.trans htext) hurlGiven]
          exact outcome_shown h

/-- Loading ends without a fault where it relies on nothing wrong. -/
theorem Expected.exists_loading (h : Expected around directory) :
    ∃ loading, (read around directory).2 = .ok loading := by
  cases hdata : fileObject? around.tree (configName directory) with
  | none =>
    rcases read_of_none hdata with hread | hread
    · exact ⟨_, hread⟩
    · exact ⟨_, hread⟩
  | some data =>
    obtain ⟨members, rfl⟩ := exists_members hdata
    have hshape := h.config _ hdata
    obtain ⟨config, hconfig, hheaders⟩ := ProjectConfig.ofJson_of_wellShaped hshape
    obtain ⟨hfile, hremote⟩ := ProjectConfig.ofJson_spec hconfig
    rw [read_of_config hdata hconfig]
    split_ifs with hgiven
    · rw [hfile] at hgiven ⊢
      obtain ⟨points, hpoints⟩ := hshape.file hgiven
      unfold fileOutcome
      rw [schemaFile_eq hpoints]
      apply exists_outcome
      intro data e hfound he
      obtain ⟨path, hpath, hfound⟩ := Option.bind_eq_some_iff.mp hfound
      apply Schema.foreseen_ofIntrospection (h.result _ data path hdata ?_) e he
      rw [configuredResult?_file hgiven, hpath, Option.bind_some, hfound]
      rfl
    · rw [hfile, Bool.not_eq_true] at hgiven
      cases hsource : config.remote with
      | none => exact ⟨.noSource, rfl⟩
      | some source =>
        rw [hsource] at hremote
        obtain ⟨hurlGiven, hurl⟩ := hremote
        obtain ⟨⟨url, htext, htakes⟩, hsendable⟩ := hshape.askable hgiven hurlGiven
        have hall : ∀ header ∈ source.headers, IsHeader header := by
          rcases hheaders source hsource with hempty | hobject
          · rw [hempty]
            exact List.forall_mem_nil _
          · exact hsendable _ hobject
        obtain ⟨asked, hasked⟩ := exists_inquiry (hurl.trans htext) hall
        dsimp only
        rw [hasked, ofAnswer_eq (hurl.trans htext) htakes]
        apply exists_outcome
        intro data e hfound he
        have hresult := h.result _ data url hdata
        apply Schema.foreseen_ofIntrospection (hresult ?_) e he
        rw [configuredResult?_request hgiven htext hurlGiven, hfound]
        rfl

theorem Expected.exists_seenTime (h : Expected around directory) :
    ∃ time, seenTime around.tree directory = .ok time := by
  unfold seenTime
  cases hdata : fileObject? around.tree (configName directory) with
  | none => exact ⟨none, rfl⟩
  | some data =>
    obtain ⟨members, rfl⟩ := exists_members hdata
    have hshape := h.config _ hdata
    obtain ⟨config, hconfig, -⟩ := ProjectConfig.ofJson_of_wellShaped hshape
    simp only [hconfig]
    split_ifs with hgiven
    · rw [(ProjectConfig.ofJson_spec hconfig).1] at hgiven ⊢
      obtain ⟨points, hpoints⟩ := hshape.file hgiven
      unfold schemaTime
      rw [hpoints, Option.getD_some, (hshape.fileName points hpoints).checkName_eq,
        schemaFile_eq hpoints]
      exact ⟨_, rfl⟩
    · exact ⟨none, rfl⟩

theorem Expected.exists_fingerprint (h : Expected around directory) :
    ∃ now, fingerprint around.tree directory = .ok now := by
  obtain ⟨time, htime⟩ := h.exists_seenTime
  rw [fingerprint_eq, (isName_chars h.name).checkName_eq, htime]
  exact ⟨_, rfl⟩

theorem sample_wellShaped (endpoint : Endpoint) :
    WellShaped endpoint (.obj [("schema", .obj [("file", .str "s.json")])]) where
  schema _ := ⟨_, rfl⟩
  file _ := ⟨_, rfl⟩
  fileName points hpoints := by
    cases hpoints
    exact isName_chars (by decide)
  request := nofun
  remote := nofun
  askable := nofun

theorem sample_schemaShape :
    Introspection.SchemaShape ((sampleResult.under "data").under "__schema") where
  roots key hkey := by
    apply Or.inl
    simp only [List.mem_cons, List.mem_nil_iff, or_false] at hkey
    rcases hkey with rfl | rfl | rfl <;> rfl
  directives := nofun

/-- The sample directory offers the schema in its file. -/
theorem sample_expected :
    Expected ⟨sampleTree sampleConfig sampleSchema, .unreachable⟩ "/p" ∧
      ∃ s, offered? ⟨sampleTree sampleConfig sampleSchema, .unreachable⟩ "/p" =
        some (s, "/p/s.json") := by
  have hconfig := sampleTree_config sampleSchema
  obtain ⟨hfound, s, hs⟩ := sampleTree_schema sampleConfig
  have hresult : configuredResult? ⟨sampleTree sampleConfig sampleSchema, .unreachable⟩ "/p"
      (.obj [("schema", .obj [("file", .str "s.json")])]) = some (sampleResult, "/p/s.json") := by
    change (fileObject? _ (PathName.join "/p" "s.json")).map (·, PathName.join "/p" "s.json") = _
    rw [sample_names.2.1, hfound]
    rfl
  constructor
  · constructor
    · decide
    · intro config hdata
      cases hconfig.symm.trans hdata
      exact sample_wellShaped _
    · intro config data source hdata hconfigured
      cases hconfig.symm.trans hdata
      cases hresult.symm.trans hconfigured
      exact sample_schemaShape
  · use s
    unfold offered? offeredBy?
    rw [hconfig, Option.bind_some, hresult, Option.bind_some]
    dsimp only
    rw [hs]
    rfl

theorem loading_shown {loading : Loading} (h : p.loading around = .ok loading) :
    loading.shown = held (p.directory.bind (offered? around)) := by
  unfold Project.loading at h
  cases hdirectory : p.directory with
  | none =>
    rw [hdirectory] at h
    cases h
    rfl
  | some directory =>
    rw [hdirectory] at h
    exact shown_of_read h

end Project
end EmbeddedGraphQL
