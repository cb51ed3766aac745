import EmbeddedGraphQL.Proofs.Loading
import EmbeddedGraphQL.Proofs.StrictSymbols
import EmbeddedGraphQL.Service.Session
import Mathlib

/-!
The schema in use is that of the files as they are. A refresh looks at the times of two files only;
where a time tells the content of a file, what was loaded when the times were the same is what
loading would give now. Schemas from an address have no time and are left out.
-/
namespace EmbeddedGraphQL

namespace FileTree

/-- The place that the parts of a name lead to. -/
def follow (place : List String) (parts : List String) : List String :=
  parts.foldl (fun place part => if part == ".." then place.dropLast else place ++ [part]) place

/-- A file that was changed at the same time has the same content in both trees. -/
def Dated (t t' : FileTree) : Prop :=
  ∀ e ∈ t.files, ∀ e' ∈ t'.files, e.1 = e'.1 → e.2.modified = e'.2.modified →
    e.2.bytes = e'.2.bytes

instance (t t' : FileTree) : Decidable (t.Dated t') :=
  inferInstanceAs (Decidable (∀ e ∈ t.files, _))

variable {t t' : FileTree} {name : String} {f f' : StoredFile}

theorem mem_of_walk {place parts : List String} (h : t.walk place parts = .file f) :
    (follow place parts, f) ∈ t.files := by
  induction parts generalizing place with
  | nil =>
    unfold walk lookUp at h
    split_ifs at h
    split at h
    next found hfound =>
      cases h
      obtain ⟨before, after, hfiles, -⟩ := List.lookup_eq_some_iff.mp hfound
      rw [hfiles]
      simp [follow]
    next => cases h
  | cons part parts ih =>
    unfold walk at h
    split at h
    next => exact ih h
    next => cases h
    next hother => exact absurd h (hother f)

theorem mem_of_find (h : t.find name = .file f) :
    (follow (if PathName.isAbsolute name then [] else t.current) (PathName.components name), f) ∈
      t.files :=
  mem_of_walk h

/-- Names lead to the same content at the same time. -/
theorem Dated.bytes_eq (h : t.Dated t') (hcurrent : t.current = t'.current)
    (hf : t.find name = .file f) (hf' : t'.find name = .file f')
    (hmodified : f.modified = f'.modified) : f.bytes = f'.bytes := by
  have hmem := mem_of_find hf
  rw [hcurrent] at hmem
  exact h _ hmem _ (mem_of_find hf') rfl hmodified

end FileTree

namespace Project

variable {tree tree' : FileTree} {around around' : Surroundings} {directory name : String}
  {file : Json} {now : Fingerprint} {time : Option Int}

/-- A name that has the same time in both trees holds the same object. -/
theorem fileObject?_eq (hdated : tree.Dated tree') (hcurrent : tree.current = tree'.current)
    (h : tree.modified? name = tree'.modified? name) :
    fileObject? tree name = fileObject? tree' name := by
  rcases tree.modified?_cases name with ⟨hnone, hfile⟩ | ⟨f, hfile, htime⟩
  · rcases tree'.modified?_cases name with ⟨hnone', hfile'⟩ | ⟨f', hfile', htime'⟩
    · rw [fileObject?_of_not_file hfile, fileObject?_of_not_file hfile']
    · rw [hnone, htime'] at h
      cases h
  · rcases tree'.modified?_cases name with ⟨hnone', hfile'⟩ | ⟨f', hfile', htime'⟩
    · rw [htime, hnone'] at h
      cases h
    · rw [htime, htime', Option.some.injEq] at h
      have hbytes := hdated.bytes_eq hcurrent hfile hfile' h
      unfold fileObject?
      simp only [hfile, hfile', hbytes]

theorem Names.congr
    (h : fileObject? tree (configName directory) = fileObject? tree' (configName directory))
    (hnames : Names tree' directory file) : Names tree directory file := by
  unfold Names
  rw [h]
  exact hnames

/-- The time of a schema file is that of the file under its name. -/
theorem schemaTime_spec (h : schemaTime tree directory file = .ok time) :
    ∃ path, schemaFile directory file = .ok path ∧ time = path.bind tree.modified? := by
  unfold schemaTime at h
  obtain ⟨_, -, h⟩ := Symbol.exceptBind_eq_ok.mp h
  obtain ⟨path, hpath, h⟩ := Symbol.exceptBind_eq_ok.mp h
  cases h
  exact ⟨path, hpath, rfl⟩

/-- A schema file that has the same time in both trees leads to the same. -/
theorem fileOutcome_eq (hdated : tree.Dated tree') (hcurrent : tree.current = tree'.current)
    (h : schemaTime tree directory file = .ok time)
    (h' : schemaTime tree' directory file = .ok time) :
    fileOutcome tree directory file = fileOutcome tree' directory file := by
  obtain ⟨path, hpath, htime⟩ := schemaTime_spec h
  obtain ⟨path', hpath', htime'⟩ := schemaTime_spec h'
  cases hpath.symm.trans hpath'
  unfold fileOutcome
  rw [hpath]
  cases path with
  | none => rfl
  | some path =>
    have hsame := fileObject?_eq hdated hcurrent (htime.symm.trans htime')
    exact congrArg (outcome · path) hsame

/-- A fingerprint holds the times of the files that are read. -/
theorem fingerprint_spec (h : fingerprint tree directory = .ok now) :
    now.directory = directory ∧ now.config = tree.modified? (configName directory) ∧
      seenTime tree directory = .ok now.schema := by
  rw [fingerprint_eq] at h
  obtain ⟨_, -, h⟩ := Symbol.exceptBind_eq_ok.mp h
  cases htime : seenTime tree directory with
  | error fault =>
    rw [htime] at h
    cases h
  | ok time =>
    rw [htime] at h
    cases h
    exact ⟨rfl, rfl, rfl⟩

/-- A directory has no configuration, or one that names a schema file. -/
def NamesFile (tree : FileTree) (directory : String) : Prop :=
  (∀ f, tree.find (configName directory) ≠ .file f) ∨ ∃ file, Names tree directory file

/-- Where the fingerprint is the same, loading gives the same. -/
theorem read_eq (hdated : around.tree.Dated around'.tree)
    (hcurrent : around.tree.current = around'.tree.current)
    (h : fingerprint around.tree directory = .ok now)
    (h' : fingerprint around'.tree directory = .ok now) (hfile : NamesFile around'.tree directory) :
    (read around directory).2 = (read around' directory).2 := by
  obtain ⟨-, hconfig, hschema⟩ := fingerprint_spec h
  obtain ⟨-, hconfig', hschema'⟩ := fingerprint_spec h'
  rw [hconfig] at hconfig'
  rcases hfile with hnone | ⟨file, hnames'⟩
  · have hnone' : ∀ f, around.tree.find (configName directory) ≠ .file f := by
      rcases around'.tree.modified?_cases (configName directory) with ⟨htime, -⟩ | ⟨f, hf, -⟩
      · rcases around.tree.modified?_cases (configName directory) with ⟨-, hfile⟩ | ⟨f, -, htime'⟩
        · exact hfile
        · rw [htime, htime'] at hconfig'
          cases hconfig'
      · exact absurd hf (hnone f)
    rw [read_of_not_file hnone, read_of_not_file hnone']
  · have hnames := hnames'.congr (fileObject?_eq hdated hcurrent hconfig')
    rw [hnames.seenTime_eq] at hschema
    rw [hnames'.seenTime_eq] at hschema'
    rw [hnames.read_eq, hnames'.read_eq, fileOutcome_eq hdated hcurrent hschema hschema']

end Project

/-- Files and an address, and the session of a service that reads them. -/
structure World where
  around : Surroundings
  session : Session

namespace World

/-- What happens to the files, to the address and to the session. -/
inductive Event where
  | write (name : String) (file : StoredFile)
  | remove (name : String)
  | respond (endpoint : Endpoint)
  | select (directory : Option String)
  | refresh
  | request (r : Request)

/-- The world with another project in its session. -/
def withProject (w : World) (p : Project) : World :=
  { w with session := { w.session with project := p } }

def after (w : World) : Event → World
  | .write name file => { w with around.tree := w.around.tree.write name file }
  | .remove name => { w with around.tree := w.around.tree.remove name }
  | .respond endpoint => { w with around.endpoint := endpoint }
  | .select directory => w.withProject (w.session.project.select directory)
  | .refresh => w.withProject (w.session.project.refresh w.around).project
  | .request r => { w with session := (w.session.handle w.around r).session }

/-- Whether an event ends with a fault. -/
def raises (w : World) : Event → Bool
  | .refresh => !(w.session.project.refresh w.around).result.isOk
  | .request r => !(w.session.handle w.around r).result.isOk
  | _ => false

/-- The project that an event refreshes. -/
def refreshed? (w : World) : Event → Option Project
  | .refresh => some w.session.project
  | .request r => some (Session.projectFor w.session.project r (Command.ofName? r.command))
  | _ => none

/-- The worlds that a run of events without a fault came by, the last one apart. -/
inductive Run : List World → World → Prop
  | start (around : Surroundings) (environment : Environment) : Run [] ⟨around, .start environment⟩
  | step {past : List World} {w : World} (e : Event) : Run past w → w.raises e = false →
      Run (w :: past) (w.after e)

variable {w : World} {past : List World} {e : Event} {p : Project}

theorem after_of_refreshed (h : w.refreshed? e = some p) :
    (w.after e).session.project = (p.refresh w.around).project := by
  cases e with
  | refresh =>
    cases h
    rfl
  | request r =>
    cases h
    unfold after Session.handle
    dsimp only
    split
    next => rfl
    next =>
      split
      next => rfl
      next => rfl
  | _ => cases h

theorem after_of_not_refreshed (h : w.refreshed? e = none) :
    (w.after e).session.project = w.session.project ∨
      ∃ directory, (w.after e).session.project = w.session.project.select directory := by
  cases e with
  | select directory => exact Or.inr ⟨directory, rfl⟩
  | refresh => cases h
  | request r => cases h
  | _ => exact Or.inl rfl

theorem refresh_of_refreshed (h : w.refreshed? e = some p) (hquiet : w.raises e = false) :
    ∃ b, (p.refresh w.around).result = .ok b := by
  cases hresult : (p.refresh w.around).result with
  | ok b => exact ⟨b, rfl⟩
  | error fault =>
    cases e with
    | refresh =>
      cases h
      unfold raises at hquiet
      dsimp only at hquiet
      rw [hresult] at hquiet
      cases hquiet
    | request r =>
      cases h
      unfold raises Session.handle at hquiet
      simp only [hresult] at hquiet
      cases hquiet
    | _ => cases h

theorem raises_refresh {b : Bool} (h : (w.session.project.refresh w.around).result = .ok b) :
    w.raises .refresh = false := by
  unfold raises
  dsimp only
  rw [h]
  rfl

theorem after_current (w : World) (e : Event) :
    (w.after e).around.tree.current = w.around.tree.current := by
  cases e <;> rfl

theorem Run.current (h : Run past w) :
    ∀ v ∈ w :: past, v.around.tree.current = w.around.tree.current := by
  induction h with
  | start around environment => simp
  | @step past w e _ _ ih =>
    rw [List.forall_mem_cons, after_current]
    exact ⟨rfl, ih⟩

end World

/-- The store of a project has what was loaded when its files looked the way it has seen them. -/
structure Project.Settled (worlds : List World) (p : Project) : Prop where
  idle : p.directory = none → p.store.Shows (.builtin, "")
  loaded : ∀ now, p.seen = some now → ∃ v ∈ worlds, ∃ directory loading,
    p.directory = some directory ∧ fingerprint v.around.tree directory = .ok now ∧
      p.loading v.around = .ok loading ∧ p.store.Shows loading.shown

namespace Project

variable {worlds worlds' : List World} {p : Project} {w : World}

theorem initial_settled (worlds : List World) : initial.Settled worlds := by
  constructor
  · intro _
    exact ⟨rfl, rfl⟩
  · nofun

theorem Settled.mono (h : p.Settled worlds) (hsub : worlds ⊆ worlds') : p.Settled worlds' := by
  constructor
  · exact h.idle
  · intro now hseen
    obtain ⟨v, hv, hloaded⟩ := h.loaded now hseen
    exact ⟨v, hsub hv, hloaded⟩

theorem Settled.select (p : Project) (directory : Option String) :
    (p.select directory).Settled worlds := by
  have hreset : Settled worlds
      { p with directory := none, seen := none, store := p.store.reset } := by
    constructor
    · intro _
      exact p.store.reset_shows
    · nofun
  unfold Project.select
  split
  next name =>
    split_ifs
    · exact hreset
    · constructor
      · nofun
      · nofun
  next => exact hreset

theorem Settled.refresh (h : p.Settled worlds) (hw : w ∈ worlds) {b : Bool}
    (hresult : (p.refresh w.around).result = .ok b) :
    (p.refresh w.around).project.Settled worlds := by
  rcases refresh_cases hresult with
    ⟨-, hsame, -⟩ | ⟨-, directory, now, loading, hdirectory, hnow, hloading, hproject⟩
  · rw [hsame]
    exact h
  · rw [hproject]
    constructor
    · intro hnone
      rw [install_directory, hdirectory] at hnone
      cases hnone
    · intro now' hseen
      rw [install_seen] at hseen
      cases hseen
      refine ⟨w, hw, directory, loading, ?_, hnow, ?_, install_shows _ _⟩
      · rw [install_directory, hdirectory]
      · unfold Project.loading at hloading ⊢
        rw [install_directory]
        exact hloading

end Project

namespace World

variable {w : World} {past : List World} {e : Event} {p : Project}

theorem settled_of_refreshed {worlds : List World} (h : w.refreshed? e = some p)
    (hsettled : w.session.project.Settled worlds) : p.Settled worlds := by
  cases e with
  | refresh =>
    cases h
    exact hsettled
  | request r =>
    cases h
    unfold Session.projectFor
    split
    next => exact Project.Settled.select _ _
    next => exact hsettled
  | _ => cases h

/-- Every event of a run keeps the store what its project has seen. -/
theorem Run.settled (h : Run past w) : w.session.project.Settled (w :: past) := by
  induction h with
  | start around environment => exact Project.initial_settled _
  | @step past w e _ hquiet ih =>
    have hw : w ∈ w.after e :: w :: past := by simp
    have hbefore := ih.mono (List.subset_cons_self (w.after e) (w :: past))
    cases hp : w.refreshed? e with
    | none =>
      rcases after_of_not_refreshed hp with hsame | ⟨directory, hselect⟩
      · rw [hsame]
        exact hbefore
      · rw [hselect]
        exact Project.Settled.select _ _
    | some p =>
      obtain ⟨b, hresult⟩ := refresh_of_refreshed hp hquiet
      rw [after_of_refreshed hp]
      exact (settled_of_refreshed hp hbefore).refresh hw hresult

/-- What a refresh without a fault leaves in the store is what loading gives now. -/
theorem Run.shows_loading (h : Run past w)
    (hdated : ∀ v ∈ w :: past, v.around.tree.Dated w.around.tree)
    (hsettled : p.Settled (w :: past)) {b : Bool} (hresult : (p.refresh w.around).result = .ok b)
    (hfile : ∀ directory, p.directory = some directory →
      Project.NamesFile w.around.tree directory) :
    ∃ loading, p.loading w.around = .ok loading ∧
      (p.refresh w.around).project.store.Shows loading.shown := by
  rcases Project.refresh_cases hresult with
    ⟨-, hsame, hseen⟩ | ⟨-, directory, now, loading, hdirectory, hnow, hloading, hproject⟩
  · rw [hsame]
    cases hdirectory : p.directory with
    | none =>
      refine ⟨.unconfigured, ?_, hsettled.idle hdirectory⟩
      unfold Project.loading
      rw [hdirectory]
    | some directory =>
      obtain ⟨now, hnow, hnowSeen⟩ := hseen directory hdirectory
      obtain ⟨v, hv, directory', loading, hdirectory', hnow', hloading, hshows⟩ :=
        hsettled.loaded now hnowSeen
      cases hdirectory.symm.trans hdirectory'
      have hread := Project.read_eq (hdated v hv) (h.current v hv) hnow' hnow
        (hfile directory hdirectory)
      refine ⟨loading, ?_, hshows⟩
      unfold Project.loading at hloading ⊢
      rw [hdirectory] at hloading ⊢
      dsimp only at hloading ⊢
      rw [← hread, hloading]
  · refine ⟨loading, hloading, ?_⟩
    rw [hproject]
    exact Project.install_shows _ _

/-- In a run without faults, in which the time of a file tells its content, every refresh leaves the
schema and the source in use that a full load gives, where a project has no configuration or one
that names a schema file. A refresh that finds nothing new asks nothing and changes nothing. -/
theorem Run.refresh_current (h : Run past w) (hquiet : w.raises e = false)
    (hdated : ∀ v ∈ w :: past, v.around.tree.Dated w.around.tree) (hp : w.refreshed? e = some p) :
    let now := (w.after e).session.project
    ((∀ directory, now.directory = some directory → Project.NamesFile w.around.tree directory) →
      (now.load w.around).result = .ok () ∧
        now.store.Shows ((now.load w.around).project.store.current.active,
          (now.load w.around).project.store.current.url) ∧
        ((∀ s source, now.loading w.around ≠ .ok (.loaded s source)) →
          now.store.Shows (.builtin, ""))) ∧
      ((p.refresh w.around).result = .ok false →
        (p.refresh w.around).inquiries = [] ∧ now.store = p.store) := by
  intro now
  have hnow : now = (p.refresh w.around).project := after_of_refreshed hp
  obtain ⟨b, hresult⟩ := refresh_of_refreshed hp hquiet
  have hsettled := settled_of_refreshed hp h.settled
  constructor
  · intro hfile
    have hdirectory : now.directory = p.directory := by
      rw [hnow, Project.refresh_directory hresult]
    obtain ⟨loading, hloading, hshows⟩ :=
      h.shows_loading hdated hsettled hresult (hdirectory ▸ hfile)
    have hloading' : now.loading w.around = .ok loading := by
      unfold Project.loading at hloading ⊢
      rw [hdirectory]
      exact hloading
    rw [← hnow] at hshows
    obtain ⟨hload, hproject⟩ := Project.load_of_loading hloading'
    obtain ⟨hactive, hurl⟩ := now.install_shows loading
    refine ⟨hload, ?_, ?_⟩
    · rw [hproject, hactive, hurl]
      exact hshows
    · intro hnone
      cases loading with
      | loaded s source => exact absurd hloading' (hnone s source)
      | _ => exact hshows
  · intro hfalse
    rcases Project.refresh_cases hfalse with ⟨-, hsame, -⟩ | ⟨htrue, -⟩
    · rw [hnow, hsame]
      exact ⟨rfl, rfl⟩
    · cases htrue

open Project (sampleTree sampleConfig sampleSchema)

theorem sampleTree_write (schema schema' : StoredFile) :
    (sampleTree sampleConfig schema).write "/p/s.json" schema' =
      sampleTree sampleConfig schema' := by
  have hparts : PathName.components "/p/s.json" = ["p", "s.json"] := by
    rw [PathName.components_eq]
    decide +kernel
  have habsolute : PathName.isAbsolute "/p/s.json" = true := by decide +kernel
  unfold FileTree.write FileTree.place
  rw [habsolute, hparts]
  rfl

/-- A schema is loaded from a file. The file is broken later on, and the builtin schema takes the
place of the schema. -/
theorem refresh_current_broken :
    let start : World := ⟨⟨sampleTree sampleConfig sampleSchema, .unreachable⟩, .start .plain⟩
    let loaded := (start.after (.select (some "/p"))).after .refresh
    let broken := loaded.after (.write "/p/s.json" ⟨2, []⟩)
    loaded.session.project.store.current.url = "/p/s.json" ∧
      (broken.after .refresh).session.project.store.Shows (.builtin, "") := by
  intro start loaded broken
  have hdirectory : (start.after (.select (some "/p"))).session.project.directory = some "/p" :=
    congrArg some Project.sample_names.2.2
  obtain ⟨s, hgood⟩ := Project.sampleTree_outcome sampleConfig
  have hbad : Project.outcome (Project.fileObject? (sampleTree sampleConfig ⟨2, []⟩)
      "/p/s.json") "/p/s.json" = .ok .failed := by
    have hempty : ((Utf8.decode? []).bind fun text => Json.parse? (String.ofList text)).isNone =
        true := by decide +kernel
    unfold Project.outcome Project.fileObject?
    simp only [(Project.sampleTree_find sampleConfig ⟨2, []⟩).2,
      Option.isNone_iff_eq_none.mp hempty]
  -- the first refresh loads the schema
  have hstart : (start.after (.select (some "/p"))).around.tree =
      sampleTree sampleConfig sampleSchema := rfl
  obtain ⟨-, b, hrefresh, hloaded, hshows⟩ := Project.sample_refresh hstart hdirectory hgood
  have hquiet := raises_refresh hrefresh
  have hrun := (((Run.start ⟨sampleTree sampleConfig sampleSchema, .unreachable⟩ .plain).step
    (.select (some "/p")) rfl).step .refresh hquiet).step (.write "/p/s.json" ⟨2, []⟩) rfl
  -- the second one finds the file broken
  have htree : broken.around.tree = sampleTree sampleConfig ⟨2, []⟩ :=
    sampleTree_write sampleSchema ⟨2, []⟩
  have hkept : broken.session.project.directory = some "/p" := hloaded
  obtain ⟨hfailed, b', hrefresh', hbroken, -⟩ := Project.sample_refresh htree hkept hbad
  have hkept' : (broken.after .refresh).session.project.directory = some "/p" := hbroken
  have hquiet' := raises_refresh hrefresh'
  constructor
  · exact (hshows rfl).2
  · apply ((hrun.refresh_current hquiet' ?_ rfl).1 ?_).2.2
    · intro s source hloaded
      have hsame : (broken.after .refresh).session.project.loading broken.around = .ok .failed := by
        rw [← hfailed]
        unfold Project.loading
        rw [hkept, hkept']
      cases hsame.symm.trans hloaded
    · have hdated : (sampleTree sampleConfig sampleSchema).Dated (sampleTree sampleConfig ⟨2, []⟩) ∧
          (sampleTree sampleConfig ⟨2, []⟩).Dated (sampleTree sampleConfig ⟨2, []⟩) := by
        decide +kernel
      rw [htree, List.forall_mem_cons, htree]
      simp only [List.forall_mem_cons, List.not_mem_nil, false_imp_iff, implies_true, and_true]
      exact ⟨hdated.2, hdated.1, hdated.1, hdated.1⟩
    · intro directory hsome
      cases hkept'.symm.trans hsome
      exact Or.inr ⟨_, htree ▸ Project.sampleTree_names ⟨2, []⟩⟩

end World
end EmbeddedGraphQL
