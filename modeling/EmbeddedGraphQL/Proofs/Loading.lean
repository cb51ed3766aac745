import EmbeddedGraphQL.Project.Loader
import Mathlib

/-!
What loading and refreshing do to a project. Loading leaves in the store what came of it, and the
builtin schema stands for everything but a schema. A refresh loads, or it changes nothing. Names of
files are split at their separators, which a sample directory at the end makes use of.
-/
namespace EmbeddedGraphQL

namespace PathName
open String

/-- A separator splits a text where it stands. `l` is done with, and `m` is the part reached. -/
theorem splitOnAux_slash (l m r : List Char) (done : List String) :
    splitOnAux (ofList (l ++ m ++ r)) "/" ⟨utf8Len l⟩ ⟨utf8Len l + utf8Len m⟩ 0 done =
      done.reverse ++ (List.splitOnPPrepend (· == '/') r m.reverse).map ofList := by
  induction r generalizing l m done with
  | nil =>
    have hend : Pos.Raw.atEnd (ofList (l ++ m ++ [])) ⟨utf8Len l + utf8Len m⟩ = true := by
      simp [atEnd_iff, -ofList_append]
    rw [splitOnAux, if_pos hend, extract_of_valid]
    simp
  | cons c r ih =>
    have hsize := c.utf8Size_pos
    have hend : ¬ Pos.Raw.atEnd (ofList (l ++ m ++ c :: r)) ⟨utf8Len l + utf8Len m⟩ = true := by
      simp only [atEnd_iff, rawEndPos_ofList, utf8Len_append, utf8Len_cons, Pos.Raw.mk_le_mk]
      omega
    have hget : Pos.Raw.get (ofList (l ++ m ++ c :: r)) ⟨utf8Len l + utf8Len m⟩ = c := by
      simpa [-ofList_append] using get_of_valid (l ++ m) (c :: r)
    have hnext : Pos.Raw.next (ofList (l ++ m ++ c :: r)) ⟨utf8Len l + utf8Len m⟩ =
        ⟨utf8Len l + utf8Len m + c.utf8Size⟩ := by
      simpa [-ofList_append] using next_of_valid (l ++ m) c r
    have hslash : Pos.Raw.get "/" 0 = '/' := by decide +kernel
    have hlast : Pos.Raw.next "/" 0 = ⟨1⟩ := by decide +kernel
    have hdone : Pos.Raw.atEnd "/" ⟨1⟩ = true := by decide +kernel
    rw [splitOnAux, if_neg hend, hget, hslash]
    by_cases hc : c = '/'
    · subst hc
      have hback : (⟨utf8Len l + utf8Len m + '/'.utf8Size⟩ : Pos.Raw).unoffsetBy ⟨1⟩ =
          ⟨utf8Len l + utf8Len m⟩ := rfl
      have hstep := ih (l ++ m ++ ['/']) [] (ofList m :: done)
      simp only [beq_self_eq_true, if_true, hnext, hlast, hdone, hback, extract_of_valid]
      simp only [List.append_nil, utf8Len_append, utf8Len_cons, utf8Len_nil, Nat.zero_add,
        Nat.add_zero, List.append_assoc, List.cons_append, List.nil_append] at hstep ⊢
      rw [Nat.add_assoc, hstep]
      simp [List.splitOnPPrepend_cons_eq_if]
    · have hstep := ih l (m ++ [c]) done
      have hback : (⟨utf8Len l + utf8Len m⟩ : Pos.Raw).unoffsetBy 0 =
          ⟨utf8Len l + utf8Len m⟩ := rfl
      rw [if_neg (by simpa using hc), hback, hnext]
      simp only [utf8Len_append, utf8Len_cons, utf8Len_nil, Nat.zero_add, List.append_assoc,
        List.cons_append, List.nil_append] at hstep ⊢
      rw [Nat.add_assoc, hstep]
      simp [List.splitOnPPrepend_cons_eq_if, hc]

/-- The parts of a name, told by its characters. -/
theorem components_eq (name : String) :
    components name = ((List.splitOnP (· == '/') name.toList).map String.ofList).filter
      fun part => part != "" && part != "." := by
  have hsplit := splitOnAux_slash [] [] name.toList []
  simp only [List.append_nil, List.nil_append, List.reverse_nil, utf8Len_nil, Nat.add_zero,
    String.ofList_toList] at hsplit
  unfold components String.splitOn
  rw [if_neg (by decide)]
  exact congrArg _ hsplit

end PathName

namespace Json

/-- The value of an object's only member, if that is its key. -/
def only? (key : String) : Json → Option Json
  | .obj [(found, value)] => if found = key then some value else none
  | _ => none

theorem eq_of_only? {j value : Json} {key : String} (h : only? key j = some value) :
    j = .obj [(key, value)] := by
  unfold only? at h
  split at h
  next =>
    split_ifs at h with hkey
    cases h
    rw [hkey]
  next => cases h

theorem eq_of_str? {j : Json} {text : String} (h : j.str? = some text) : j = .str text := by
  cases j with
  | str s =>
    cases h
    rfl
  | _ => cases h

theorem eq_of_arr? {j : Json} {items : List Json} (h : j.arr? = some items) : j = .arr items := by
  cases j with
  | arr all =>
    cases h
    rfl
  | _ => cases h

end Json

/-- What the store has after loading. The builtin schema comes from nowhere. -/
def Loading.shown : Loading → ActiveSchema × String
  | .loaded s source => (.loaded s, source)
  | _ => (.builtin, "")

/-- The store has what came of loading. -/
def Store.Shows (store : Store) (shown : ActiveSchema × String) : Prop :=
  store.current.active = shown.1 ∧ store.current.url = shown.2

theorem FileTree.modified?_cases (t : FileTree) (name : String) :
    (t.modified? name = none ∧ ∀ f, t.find name ≠ .file f) ∨
      ∃ f, t.find name = .file f ∧ t.modified? name = some f.modified := by
  unfold modified?
  cases t.find name with
  | file f => exact Or.inr ⟨f, rfl, rfl⟩
  | _ => exact Or.inl ⟨rfl, nofun⟩

theorem Store.reset_shows (store : Store) : store.reset.Shows (.builtin, "") := by
  unfold reset
  split_ifs with h
  · obtain ⟨hbuiltin, hurl⟩ := Bool.and_eq_true_iff.mp h
    constructor
    · unfold Snapshot.isBuiltin at hbuiltin
      split at hbuiltin
      next heq => exact heq
      next => cases hbuiltin
    · simpa using hurl
  · exact ⟨rfl, rfl⟩

namespace Project

variable {around : Surroundings} {p : Project} {tree : FileTree} {name directory : String}
  {data file : Json} {config : ProjectConfig}

/-- The name of a directory's configuration. -/
def configName (directory : String) : String := PathName.join directory ProjectConfig.fileName

theorem fileObject?_of_not_file (h : ∀ f, tree.find name ≠ .file f) :
    fileObject? tree name = none := by
  unfold fileObject?
  split
  next f hf => exact absurd hf (h f)
  next => rfl

theorem read_of_not_file (h : ∀ f, around.tree.find (configName directory) ≠ .file f) :
    read around directory = ([], .ok .unconfigured) := by
  unfold read
  dsimp only
  split
  next f hf => exact absurd hf (h f)
  next => rfl

theorem exists_file (h : fileObject? tree name = some data) :
    ∃ f, tree.find name = .file f := by
  by_contra hnone
  rw [fileObject?_of_not_file fun f hf => hnone ⟨f, hf⟩] at h
  cases h

/-- What comes of an introspection result that may be missing. -/
def outcome (found : Option Json) (source : String) : Except LoadFault Loading :=
  match found with
  | some data => build data source
  | none => .ok .failed

/-- What comes of the schema file that a configuration gives. -/
def fileOutcome (tree : FileTree) (directory : String) (file : Json) : Except LoadFault Loading :=
  (schemaFile directory file).bind fun path =>
    outcome (path.bind (fileObject? tree)) (path.getD "")

/-- What a configuration of a directory leads to when it is read. -/
theorem read_of_config
    (hdata : fileObject? around.tree (configName directory) = some data)
    (hconfig : ProjectConfig.ofJson data = .ok config) :
    (read around directory).2 =
      if config.file.isGiven then fileOutcome around.tree directory config.file
      else match config.remote with
        | none => .ok .noSource
        | some source => (inquiry source).bind fun _ => ofAnswer source around.endpoint := by
  obtain ⟨f, hf⟩ := exists_file hdata
  unfold configName at hdata hf
  unfold read
  simp only [hf, hdata, hconfig]
  by_cases hgiven : config.file.isGiven = true
  · simp only [if_pos hgiven]
    unfold fileOutcome
    rcases schemaFile directory config.file with fault | _ | path
    · rfl
    · rfl
    · dsimp only [Except.bind, Option.bind_some]
      cases fileObject? around.tree path <;> rfl
  · simp only [if_neg hgiven]
    cases config.remote with
    | none => rfl
    | some source =>
      dsimp only
      cases inquiry source <;> rfl

/-- When the schema file of a directory was last changed, as far as a fingerprint looks at it. -/
def seenTime (tree : FileTree) (directory : String) : Except LoadFault (Option Int) :=
  match fileObject? tree (configName directory) with
  | none => .ok none
  | some data =>
    match ProjectConfig.ofJson data with
    | .error fault => .error (.config fault)
    | .ok config =>
      if config.file.isGiven then schemaTime tree directory config.file else .ok none

/-- A fingerprint is taken of a name that can be looked up. It has the times of both files. -/
theorem fingerprint_eq (tree : FileTree) (directory : String) :
    fingerprint tree directory = (checkName (directory.toList.map .char)).bind fun _ =>
      (seenTime tree directory).map (⟨directory, tree.modified? (configName directory), ·⟩) := by
  unfold fingerprint seenTime
  refine congrArg (Except.bind _) (funext fun _ => ?_)
  rcases tree.modified?_cases (configName directory) with ⟨htime, hnone⟩ | ⟨f, -, htime⟩
  · rw [fileObject?_of_not_file hnone, htime]
    unfold configName at htime
    simp only [htime]
    rfl
  · rw [htime]
    unfold configName at htime ⊢
    simp only [htime]
    cases fileObject? tree (PathName.join directory ProjectConfig.fileName) with
    | none => rfl
    | some data =>
      dsimp only
      cases ProjectConfig.ofJson data with
      | error fault => rfl
      | ok config =>
        dsimp only
        split_ifs <;> rfl

/-- A name that the system looks up: one without NUL, and without surrogates but those for bytes. -/
def IsName (points : List CodePoint) : Prop :=
  ∀ point ∈ points, point.isNameable = true ∧ point ≠ .char '\x00'

theorem IsName.checkName_eq {points : List CodePoint} (h : IsName points) :
    checkName points = .ok () := by
  have hnameable : points.all CodePoint.isNameable = true :=
    List.all_eq_true.mpr fun point hpoint => (h point hpoint).1
  have hnul : points.contains (.char '\x00') = false := by
    rw [List.contains_eq_mem, decide_eq_false_iff_not]
    exact fun hmem => (h _ hmem).2 rfl
  unfold checkName
  rw [hnameable, hnul]
  rfl

theorem isName_chars {text : List Char} (h : '\x00' ∉ text) : IsName (text.map .char) := by
  intro point hpoint
  obtain ⟨c, hc, rfl⟩ := List.mem_map.mp hpoint
  refine ⟨rfl, ?_⟩
  intro heq
  cases heq
  exact h hc

/-- The configuration of a directory gives a schema file. -/
def Names (tree : FileTree) (directory : String) (file : Json) : Prop :=
  file.isGiven = true ∧ ∃ data config, fileObject? tree (configName directory) = some data ∧
    ProjectConfig.ofJson data = .ok config ∧ config.file = file

theorem Names.read_eq (h : Names around.tree directory file) :
    (read around directory).2 = fileOutcome around.tree directory file := by
  obtain ⟨hgiven, data, config, hdata, hconfig, rfl⟩ := h
  rw [read_of_config hdata hconfig, if_pos hgiven]

theorem Names.seenTime_eq (h : Names tree directory file) :
    seenTime tree directory = schemaTime tree directory file := by
  obtain ⟨hgiven, data, config, hdata, hconfig, rfl⟩ := h
  unfold seenTime
  simp only [hdata, hconfig, if_pos hgiven]

theorem install_shows (p : Project) (loading : Loading) :
    (p.install loading).1.store.Shows loading.shown := by
  cases loading with
  | loaded s source => exact ⟨rfl, rfl⟩
  | _ => exact p.store.reset_shows

@[simp] theorem install_directory (p : Project) (loading : Loading) :
    (p.install loading).1.directory = p.directory := by
  cases loading <;> rfl

@[simp] theorem install_seen (p : Project) (loading : Loading) :
    (p.install loading).1.seen = p.seen := by
  cases loading <;> rfl

/-- What comes of loading the schema of a project. -/
def loading (around : Surroundings) (p : Project) : Except LoadFault Loading :=
  match p.directory with
  | none => .ok .unconfigured
  | some directory => (read around directory).2

/-- Loading installs what comes of it, or leaves the project alone if that is a fault. -/
theorem load_eq (around : Surroundings) (p : Project) :
    ((p.load around).project, (p.load around).result) =
      match p.loading around with
      | .ok loading => ((p.install loading).1, .ok ())
      | .error fault => (p, .error fault) := by
  unfold load Project.loading
  cases p.directory with
  | none => rfl
  | some directory =>
    dsimp only
    rcases read around directory with ⟨inquiries, fault | loading⟩
    · rfl
    · rfl

theorem load_of_loading {loading : Loading} (h : p.loading around = .ok loading) :
    (p.load around).result = .ok () ∧ (p.load around).project = (p.install loading).1 := by
  have hload := load_eq around p
  rw [h, Prod.mk.injEq] at hload
  exact hload.symm

theorem load_of_fault {fault : LoadFault} (h : p.loading around = .error fault) :
    (p.load around).result = .error fault ∧ (p.load around).project = p := by
  have hload := load_eq around p
  rw [h, Prod.mk.injEq] at hload
  exact hload.symm

/-- Everything that a refresh without a fault can do: there is nothing new, or the directory is
looked at and loaded. -/
theorem refresh_cases {b : Bool} (h : (p.refresh around).result = .ok b) :
    (b = false ∧ p.refresh around = ⟨p, [], [], .ok false⟩ ∧
      ∀ directory, p.directory = some directory →
        ∃ now, fingerprint around.tree directory = .ok now ∧ p.seen = some now) ∨
    (b = true ∧ ∃ directory now loading, p.directory = some directory ∧
      fingerprint around.tree directory = .ok now ∧ p.loading around = .ok loading ∧
        (p.refresh around).project = ({ p with seen := some now }.install loading).1) := by
  cases hdirectory : p.directory with
  | none =>
    have hidle : p.refresh around = ⟨p, [], [], .ok false⟩ := by
      unfold refresh
      simp only [hdirectory]
    rw [hidle] at h
    cases h
    exact Or.inl ⟨rfl, hidle, nofun⟩
  | some directory =>
    cases hnow : fingerprint around.tree directory with
    | error fault =>
      unfold refresh at h
      simp only [hdirectory, hnow] at h
      cases h
    | ok now =>
      by_cases hseen : p.seen = some now
      · have hsame : p.refresh around = ⟨p, [], [], .ok false⟩ := by
          unfold refresh
          simp only [hdirectory, hnow, if_pos hseen]
        rw [hsame] at h
        cases h
        apply Or.inl
        refine ⟨rfl, hsame, ?_⟩
        intro directory' hsome
        cases hsome
        exact ⟨now, hnow, hseen⟩
      · have hload :
            (p.refresh around).project = (load around { p with seen := some now }).project ∧
            (p.refresh around).result =
              (load around { p with seen := some now }).result.map fun _ => true := by
          unfold refresh
          simp only [hdirectory, hnow, if_neg hseen, and_self]
        have hloading : ({ p with seen := some now } : Project).loading around = p.loading around :=
          rfl
        cases houtcome : p.loading around with
        | error fault =>
          rw [hload.2, (load_of_fault (hloading.trans houtcome)).1] at h
          cases h
        | ok loading =>
          obtain ⟨hresult, hproject⟩ := load_of_loading (hloading.trans houtcome)
          rw [hload.2, hresult] at h
          cases h
          have hinstalled := hload.1.trans hproject
          rw [hdirectory] at hinstalled
          exact Or.inr ⟨rfl, directory, now, loading, rfl, hnow, rfl, hinstalled⟩

/-- A refresh ends without a fault where the directory can be looked at and loaded. -/
theorem refresh_of_loading {loading : Loading} (hloading : p.loading around = .ok loading)
    (hlook : ∀ directory, p.directory = some directory →
      ∃ now, fingerprint around.tree directory = .ok now) :
    ∃ b, (p.refresh around).result = .ok b := by
  unfold refresh
  split
  next => exact ⟨false, rfl⟩
  next directory hdirectory =>
    obtain ⟨now, hnow⟩ := hlook directory hdirectory
    simp only [hnow]
    split_ifs
    · exact ⟨false, rfl⟩
    · have hloading' : ({ p with seen := some now } : Project).loading around = .ok loading :=
        hloading
      refine ⟨true, ?_⟩
      rw [(load_of_loading hloading').1]
      rfl

theorem refresh_directory {b : Bool} (h : (p.refresh around).result = .ok b) :
    (p.refresh around).project.directory = p.directory := by
  rcases refresh_cases h with ⟨-, hsame, -⟩ | ⟨-, directory, now, loading, -, -, -, hproject⟩
  · rw [hsame]
  · rw [hproject, install_directory]

/-- A directory `/p` with a configuration and a schema file. -/
def sampleTree (config schema : StoredFile) : FileTree :=
  ⟨[], [["p"]], [(["p", "graphql.config.json"], config), (["p", "s.json"], schema)]⟩

/-- A configuration that names the schema file. -/
def sampleConfig : StoredFile :=
  ⟨1, Utf8.encode "\x7b\"schema\": \x7b\"file\": \"s.json\"\x7d\x7d".toList⟩

/-- A schema file with a schema. -/
def sampleSchema : StoredFile :=
  ⟨1, Utf8.encode "\x7b\"data\": \x7b\"__schema\": \x7b\"types\": []\x7d\x7d\x7d".toList⟩

theorem sample_names : configName "/p" = "/p/graphql.config.json" ∧
    PathName.join "/p" "s.json" = "/p/s.json" ∧ PathName.normalize "/p" = "/p" := by
  unfold configName PathName.join PathName.normalize
  simp only [PathName.components_eq]
  decide +kernel

theorem sampleTree_find (config schema : StoredFile) :
    (sampleTree config schema).find (configName "/p") = .file config ∧
      (sampleTree config schema).find "/p/s.json" = .file schema := by
  have hparts : PathName.components "/p/graphql.config.json" = ["p", "graphql.config.json"] ∧
      PathName.components "/p/s.json" = ["p", "s.json"] := by
    simp only [PathName.components_eq]
    decide +kernel
  have habsolute : PathName.isAbsolute "/p/graphql.config.json" = true ∧
      PathName.isAbsolute "/p/s.json" = true := by decide +kernel
  unfold FileTree.find
  rw [sample_names.1, hparts.1, hparts.2, habsolute.1, habsolute.2]
  exact ⟨rfl, rfl⟩

theorem sampleTree_config (schema : StoredFile) :
    fileObject? (sampleTree sampleConfig schema) (configName "/p") =
      some (.obj [("schema", .obj [("file", .str "s.json")])]) := by
  have hread : (fileObject? (sampleTree sampleConfig schema) (configName "/p")).bind (fun data =>
      (data.only? "schema").bind fun part => (part.only? "file").bind Json.str?) =
        some "s.json" := by
    unfold fileObject?
    simp only [(sampleTree_find sampleConfig schema).1]
    decide +kernel
  simp only [Option.bind_eq_some_iff] at hread
  obtain ⟨data, hdata, part, hpart, file, hfile, hname⟩ := hread
  rw [hdata, Json.eq_of_only? hpart, Json.eq_of_only? hfile, Json.eq_of_str? hname]

/-- The introspection result in the schema file. -/
def sampleResult : Json := .obj [("data", .obj [("__schema", .obj [("types", .arr [])])])]

theorem sampleTree_schema (config : StoredFile) :
    fileObject? (sampleTree config sampleSchema) "/p/s.json" = some sampleResult ∧
      ∃ s, Schema.ofIntrospection sampleResult = .ok s := by
  constructor
  · have hread : (fileObject? (sampleTree config sampleSchema) "/p/s.json").bind (fun data =>
        (data.only? "data").bind fun part => (part.only? "__schema").bind fun schema =>
          (schema.only? "types").bind fun types => types.arr?.map List.length) = some 0 := by
      unfold fileObject?
      simp only [(sampleTree_find config sampleSchema).2]
      decide +kernel
    simp only [Option.bind_eq_some_iff, Option.map_eq_some_iff, List.length_eq_zero_iff] at hread
    obtain ⟨data, hdata, part, hpart, schema, hschema, types, htypes, _, hitems, rfl⟩ := hread
    rw [hdata, Json.eq_of_only? hpart, Json.eq_of_only? hschema, Json.eq_of_only? htypes,
      Json.eq_of_arr? hitems]
    rfl
  · have hbuilt : (Schema.ofIntrospection sampleResult).isOk = true := by decide +kernel
    cases hs : Schema.ofIntrospection sampleResult with
    | error e =>
      rw [hs] at hbuilt
      cases hbuilt
    | ok s => exact ⟨s, rfl⟩

theorem sampleTree_outcome (config : StoredFile) :
    ∃ s, outcome (fileObject? (sampleTree config sampleSchema) "/p/s.json") "/p/s.json" =
      .ok (.loaded s "/p/s.json") := by
  obtain ⟨hdata, s, hs⟩ := sampleTree_schema config
  use s
  unfold outcome build
  simp only [hdata, hs]

theorem sampleTree_names (schema : StoredFile) :
    Names (sampleTree sampleConfig schema) "/p" (.str "s.json") :=
  ⟨by decide, _, _, sampleTree_config schema, rfl, rfl⟩

/-- A refresh of the sample directory loads what comes of the schema file, if nothing was seen. -/
theorem sample_refresh {schema : StoredFile} {loading : Loading}
    (htree : around.tree = sampleTree sampleConfig schema) (hdirectory : p.directory = some "/p")
    (h : outcome (fileObject? (sampleTree sampleConfig schema) "/p/s.json") "/p/s.json" =
      .ok loading) :
    p.loading around = .ok loading ∧ ∃ b, (p.refresh around).result = .ok b ∧
      (p.refresh around).project.directory = some "/p" ∧
        (p.seen = none → (p.refresh around).project.store.Shows loading.shown) := by
  have hnames : Names around.tree "/p" (.str "s.json") := htree ▸ sampleTree_names schema
  have hfile : schemaFile "/p" (.str "s.json") = .ok (some "/p/s.json") :=
    congrArg (Except.ok ∘ some) sample_names.2.1
  have hloading : p.loading around = .ok loading := by
    unfold Project.loading
    rw [hdirectory]
    dsimp only
    rw [hnames.read_eq, htree]
    unfold fileOutcome
    rw [hfile]
    exact h
  obtain ⟨b, hresult⟩ := refresh_of_loading hloading fun directory hsome => by
    cases hdirectory.symm.trans hsome
    rw [fingerprint_eq, hnames.seenTime_eq]
    exact ⟨_, rfl⟩
  refine ⟨hloading, b, hresult, (refresh_directory hresult).trans hdirectory, ?_⟩
  intro hunseen
  rcases refresh_cases hresult with
    ⟨-, -, hseen⟩ | ⟨-, _, now, loading', -, -, hloading', hproject⟩
  · obtain ⟨now, -, hnow⟩ := hseen "/p" hdirectory
    cases hunseen.symm.trans hnow
  · cases hloading.symm.trans hloading'
    rw [hproject]
    exact install_shows _ loading

end Project
end EmbeddedGraphQL
