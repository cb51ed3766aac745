import EmbeddedGraphQL.Http.Site
import EmbeddedGraphQL.Proofs.KeyedLists
import Mathlib

/-!
Where the fields of a request come from. A body speaks for the names that it has, and the last pair
of a name in the query string for the names that the body lacks. A field of one name is what the
body says, or else what the query string says, or else its default. The project directory has two
names, and the preferred one in the query string hides the other one in the body.
-/
namespace EmbeddedGraphQL

namespace Json

variable {members : List (String × Json)}

theorem lookup_map_snd {α β : Type} (f : α → β) (pairs : List (String × α)) (name : String) :
    (pairs.map fun pair => (pair.1, f pair.2)).lookup name = (pairs.lookup name).map f := by
  induction pairs with
  | nil => rfl
  | cons pair rest ih =>
    obtain ⟨key, a⟩ := pair
    simp only [List.map_cons, List.lookup_cons, ih]
    cases name == key <;> rfl

theorem number?_ne_obj {text rest : List Char} {value : Json}
    (h : number? text = some (value, rest)) : value ≠ .obj members := by
  unfold number? at h
  split at h
  extract_lets whole body at h
  split at h
  · cases h
  · split at h
    split at h
    · cases h
      simp
    · split_ifs at h
      all_goals
        cases h
        simp

theorem ofPoints_ne_obj (points : List CodePoint) : ofPoints points ≠ .obj members := by
  intro h
  have hpoints := points?_ofPoints points
  rw [h] at hpoints
  cases hpoints

/-- An object that is read from a text has no key twice. -/
theorem value?_nodup {fuel : Nat} {text rest : List CodePoint}
    (h : value? fuel text = some (.obj members, rest)) : (members.map Prod.fst).Nodup := by
  cases fuel with
  | zero => simp [value?] at h
  | succ fuel =>
    unfold value? at h
    split at h
    · obtain ⟨⟨points, _⟩, -, heq⟩ := Option.map_eq_some_iff.mp h
      exact absurd (congrArg Prod.fst heq) (ofPoints_ne_obj points)
    · split at h <;> simp at h
    · split at h
      · cases h
        exact List.nodup_nil
      · obtain ⟨⟨found, _⟩, -, heq⟩ := Option.map_eq_some_iff.mp h
        cases heq
        exact nodup_ofMembers found
    · dsimp only at h
      split at h
      case h_1 hfound =>
        cases h
        obtain ⟨⟨word, value⟩, hmem, hvalue⟩ := List.exists_of_findSome?_eq_some hfound
        obtain ⟨_, -, heq⟩ := Option.map_eq_some_iff.mp hvalue
        cases heq
        -- Six words stand for values, none of them for an object.
        replace hmem : (word, obj members) ∈ [_, _, _, _, _, _] := hmem
        simp at hmem
      case h_2 =>
        obtain ⟨⟨value, _⟩, hnumber, heq⟩ := Option.map_eq_some_iff.mp h
        exact absurd (congrArg Prod.fst heq) (number?_ne_obj hnumber)

theorem ofBytes?_nodup {bytes : Utf8.Bytes} (h : ofBytes? bytes = some (.obj members)) :
    (members.map Prod.fst).Nodup := by
  obtain ⟨text, -, hparse⟩ := Option.bind_eq_some_iff.mp h
  unfold ofText? at hparse
  split at hparse
  case h_1 hvalue =>
    split at hparse <;> cases hparse
    exact value?_nodup hvalue
  case h_2 => cases hparse

theorem ofBytes?_nil : ofBytes? [] = none := by
  have h : (ofBytes? []).isNone = true := by decide +kernel
  exact Option.isNone_iff_eq_none.mp h

end Json

namespace Query

/-- The value of the last pair of a name. -/
def last? (query name : String) : Option String := (pairs query).reverse.lookup name

/-- What a query string gives for a name. -/
def given (query name : String) : Option Json := (last? query name).map .str

theorem lookup_members (query name : String) : (members query).lookup name = given query name := by
  unfold members Json.ofMembers
  rw [Json.lookup_foldl_insert, ← List.map_reverse, Json.lookup_map_snd]
  simp [given, last?]

end Query

namespace Request
open Coercion

/-- Whether a field has the value that is read from what was given for it, or else its default. -/
def Reads {α : Type} (given : Option Json) (default : α) (coerce : Json → Outcome α) (result : α) :
    Prop :=
  match given with
  | none => result = default
  | some value => coerce value = .ok result

/-- The fields that have one name, each read from what is given under that name. -/
structure ReadFrom (given : String → Option Json) (flag : Json → Outcome Bool) (q : Request) :
    Prop where
  command : Reads (given "command") "getTokens" text q.command
  env : Reads (given "env") none optionalText q.env
  relay : Reads (given "relay") false flag q.relay
  buffer : Reads (given "buffer") "" text q.buffer
  line : Reads (given "line") 0 whole q.line
  ch : Reads (given "ch") 0 whole q.ch
  type : Reads (given "type") none optionalText q.type
  field : Reads (given "field") none optionalText q.field

theorem ReadFrom.congr {given other : String → Option Json} {flag plain : Json → Outcome Bool}
    {q : Request} (h : q.ReadFrom given flag)
    (hrelay : Reads (given "relay") false flag q.relay →
      Reads (other "relay") false plain q.relay)
    (hother : ∀ name, name ≠ "relay" → given name = other name) : q.ReadFrom other plain where
  command := hother "command" (by decide) ▸ h.command
  env := hother "env" (by decide) ▸ h.env
  relay := hrelay h.relay
  buffer := hother "buffer" (by decide) ▸ h.buffer
  line := hother "line" (by decide) ▸ h.line
  ch := hother "ch" (by decide) ▸ h.ch
  type := hother "type" (by decide) ▸ h.type
  field := hother "field" (by decide) ▸ h.field

variable {members : List (String × Json)} {q : Request}

theorem read_eq_ok_iff {α : Type} (names : List String) (default : α) (coerce : Json → Outcome α)
    (result : α) :
    read members names default coerce = .ok result ↔
      Reads (names.findSome? (Json.obj members).get?) default coerce result := by
  have hfound : names.findSome? (Json.obj members).get? =
      (names.findSome? fun name => (members.lookup name).map fun value => (name, value)).map
        Prod.snd := by
    rw [List.map_findSome?]
    congr 1
    funext name
    simp [Json.get?, Function.comp_def]
  rw [hfound]
  unfold read
  cases names.findSome? fun name => (members.lookup name).map fun value => (name, value) with
  | none => simp [Reads, eq_comm]
  | some found =>
    obtain ⟨name, value⟩ := found
    simp only [Option.map_some, Reads]
    cases coerce value <;> simp [Except.mapError]

theorem read_one_eq_ok_iff {α : Type} (name : String) (default : α) (coerce : Json → Outcome α)
    (result : α) :
    read members [name] default coerce = .ok result ↔
      Reads ((Json.obj members).get? name) default coerce result := by
  rw [read_eq_ok_iff]
  cases h : (Json.obj members).get? name <;> simp [h]

/-- The members of an object make a request when every field can be read. -/
theorem ofMembers_eq_ok_iff :
    ofMembers members = .ok q ↔
      q.ReadFrom (Json.obj members).get? flag ∧
        Reads (projectDirNames.findSome? (Json.obj members).get?) none optionalText
          q.projectDir := by
  unfold ofMembers
  dsimp only
  constructor
  · intro h
    split at h <;> cases h
    case h_1 hcommand henv hrelay hbuffer hline hch htype hfield hdirectory =>
      refine ⟨⟨?_, ?_, ?_, ?_, ?_, ?_, ?_, ?_⟩, (read_eq_ok_iff ..).mp hdirectory⟩
      all_goals apply (read_one_eq_ok_iff ..).mp; assumption
  · rintro ⟨h, hdirectory⟩
    rw [(read_one_eq_ok_iff ..).mpr h.command, (read_one_eq_ok_iff ..).mpr h.env,
      (read_one_eq_ok_iff ..).mpr h.relay, (read_one_eq_ok_iff ..).mpr h.buffer,
      (read_one_eq_ok_iff ..).mpr h.line, (read_one_eq_ok_iff ..).mpr h.ch,
      (read_one_eq_ok_iff ..).mpr h.type, (read_one_eq_ok_iff ..).mpr h.field,
      (read_eq_ok_iff ..).mpr hdirectory]

end Request

namespace Site
open Request Coercion

variable {r : HttpRequest} {q : Request} {members : List (String × Json)}

/-- A flag as the service reads it: of the texts, one word is true and all others are false. -/
def plainFlag : Json → Outcome Bool
  | .str word => .ok (word == "true")
  | .unpaired _ => .ok false
  | value => flag value

def isGraphql (r : HttpRequest) : Bool :=
  ((r.header? "content-type").getD "").startsWith graphqlType

/-- What the body of a request gives for names: GraphQL text is the buffer, an object its members,
and an empty body gives nothing. -/
inductive Body (r : HttpRequest) : (String → Option Json) → Prop
  | graphql {text : List Char} (h : isGraphql r = true)
    (decoded : Utf8.decode? r.body = some text) :
    Body r fun name => if name = "buffer" then some (.str (String.ofList text)) else none
  | object {members : List (String × Json)} (h : isGraphql r = false)
    (parsed : Json.ofBytes? r.body = some (.obj members)) : Body r (Json.obj members).get?
  | empty (h : isGraphql r = false) (nothing : r.body = []) : Body r fun _ => none

/-- What a request gives for a name: what the body gives, or else the query string. -/
def given (body : String → Option Json) (query name : String) : Option Json :=
  (body name).or (Query.given query name)

/-- What a request gives for any of some names, the preferred one first: what the body gives, or
else the query string. -/
def givenAny (body : String → Option Json) (query : String) (names : List String) : Option Json :=
  (names.findSome? body).or (names.findSome? (Query.given query))

/-- Whether the body names the project directory by its second name only, and the query string by
its preferred one. -/
def DirectoryHidden (body : String → Option Json) (query : String) : Prop :=
  body "projectDir" = none ∧ (body "project_dir").isSome ∧ (Query.given query "projectDir").isSome

theorem lookup_update (changes : List (String × Json)) (h : (changes.map Prod.fst).Nodup)
    (name : String) :
    (update members changes).lookup name = (changes.lookup name).or (members.lookup name) := by
  rw [← Json.lookup_reverse h]
  exact Json.lookup_foldl_insert changes members name

theorem members_eq (r : HttpRequest) :
    Site.members r =
      if isGraphql r then
        match Utf8.decode? r.body with
        | some text =>
          .ok (Json.insert (Query.members r.query) "buffer" (.str (String.ofList text)))
        | none => .error .encoding
      else if r.body.isEmpty then .ok (Query.members r.query)
      else match Json.ofBytes? r.body with
        | some (.obj body) => .ok (update (Query.members r.query) body)
        | some _ => .error .notObject
        | none => .error .notJson := rfl

/-- A request whose members are found has a body of one of the three kinds. -/
theorem exists_body (h : Site.members r = .ok members) : ∃ body, Body r body := by
  rw [members_eq] at h
  split at h
  case isTrue hgraphql =>
    split at h <;> cases h
    case h_1 text htext => exact ⟨_, .graphql hgraphql htext⟩
  case isFalse hgraphql =>
    rw [Bool.not_eq_true] at hgraphql
    split at h
    case isTrue hempty => exact ⟨_, .empty hgraphql (List.isEmpty_iff.mp hempty)⟩
    case isFalse =>
      split at h <;> cases h
      case h_1 body hbody => exact ⟨_, .object hgraphql hbody⟩

/-- The members of a request are what its body gives, or else its query string. -/
theorem members_of_body {body : String → Option Json} (h : Body r body) :
    ∃ members, Site.members r = .ok members ∧
      ∀ name, members.lookup name = given body r.query name := by
  rw [members_eq]
  cases h with
  | graphql h decoded =>
    rw [h, decoded]
    refine ⟨_, rfl, fun name => ?_⟩
    rw [Json.lookup_insert, Query.lookup_members, given]
    simp only [eq_comm]
    split <;> rfl
  | @object body h parsed =>
    have hbody : r.body.isEmpty = false := by
      rw [← Bool.not_eq_true, List.isEmpty_iff]
      intro hnil
      rw [hnil, Json.ofBytes?_nil] at parsed
      cases parsed
    rw [h, hbody, parsed]
    refine ⟨_, rfl, fun name => ?_⟩
    rw [lookup_update body (Json.ofBytes?_nodup parsed), Query.lookup_members]
    rfl
  | empty h hnil =>
    rw [h, hnil]
    exact ⟨_, rfl, Query.lookup_members r.query⟩

theorem lookup_withPlainFlag_of_ne {name : String} (h : name ≠ "relay") :
    (withPlainFlag members).lookup name = members.lookup name := by
  unfold withPlainFlag
  split
  · rw [Json.lookup_insert, if_neg (Ne.symm h)]
  · rw [Json.lookup_insert, if_neg (Ne.symm h)]
  · rfl

theorem reads_withPlainFlag (result : Bool) :
    Reads ((withPlainFlag members).lookup "relay") false flag result ↔
      Reads (members.lookup "relay") false plainFlag result := by
  unfold withPlainFlag
  split
  case h_1 word hword =>
    rw [Json.lookup_insert, if_pos rfl, hword]
    rfl
  case h_2 points hpoints =>
    rw [Json.lookup_insert, if_pos rfl, hpoints]
    rfl
  case h_3 hword hpoints =>
    cases hvalue : members.lookup "relay" with
    | none => rfl
    | some value =>
      cases value with
      | str word => exact absurd hvalue (hword word)
      | unpaired points => exact absurd hvalue (hpoints points)
      | _ => rfl

theorem readFrom_withPlainFlag :
    q.ReadFrom (Json.obj (withPlainFlag members)).get? flag ↔
      q.ReadFrom (Json.obj members).get? plainFlag :=
  ⟨fun h => h.congr (reads_withPlainFlag q.relay).mp fun _ => lookup_withPlainFlag_of_ne,
    fun h => h.congr (reads_withPlainFlag q.relay).mpr fun _ hname =>
      (lookup_withPlainFlag_of_ne hname).symm⟩

/-- What body and query string give is what the fields are read from. -/
theorem request_eq_ok_iff_of_members {given : String → Option Json}
    (hmembers : Site.members r = .ok members) (hgiven : ∀ name, members.lookup name = given name) :
    request r = .ok q ↔ q.ReadFrom given plainFlag ∧
      Reads (projectDirNames.findSome? given) none optionalText q.projectDir := by
  obtain rfl : (Json.obj members).get? = given := funext hgiven
  have hrequest : request r = (Request.ofMembers (withPlainFlag members)).mapError .refused := by
    rw [request, hmembers]
    rfl
  have hnames : projectDirNames.findSome? (Json.obj (withPlainFlag members)).get? =
      projectDirNames.findSome? (Json.obj members).get? := by
    simp only [projectDirNames, List.findSome?_cons, List.findSome?_nil, Json.get?,
      lookup_withPlainFlag_of_ne (show "projectDir" ≠ "relay" by decide),
      lookup_withPlainFlag_of_ne (show "project_dir" ≠ "relay" by decide)]
  rw [hrequest, ← readFrom_withPlainFlag, ← hnames, ← ofMembers_eq_ok_iff]
  cases Request.ofMembers (withPlainFlag members) <;> simp [Except.mapError]

/-- A request is accepted when every field can be read from what body and query string give. -/
theorem request_eq_ok_iff (r : HttpRequest) (q : Request) :
    request r = .ok q ↔ ∃ body, Body r body ∧ q.ReadFrom (given body r.query) plainFlag ∧
      Reads (projectDirNames.findSome? (given body r.query)) none optionalText q.projectDir := by
  constructor
  · intro h
    obtain ⟨members, hmembers⟩ : ∃ members, Site.members r = .ok members := by
      cases hmembers : Site.members r with
      | ok members => exact ⟨members, rfl⟩
      | error unreadable =>
        rw [request, hmembers] at h
        cases h
    obtain ⟨body, hbody⟩ := exists_body hmembers
    obtain ⟨members, hmembers, hgiven⟩ := members_of_body hbody
    exact ⟨body, hbody, (request_eq_ok_iff_of_members hmembers hgiven).mp h⟩
  · rintro ⟨body, hbody, h⟩
    obtain ⟨members, hmembers, hgiven⟩ := members_of_body hbody
    exact (request_eq_ok_iff_of_members hmembers hgiven).mpr h

variable {body : String → Option Json} {query : String}

/-- Name by name, body and query string give what they give for both names of the project
directory, unless the preferred name of the query string hides the other one of the body. -/
theorem findSome?_given (h : ¬ DirectoryHidden body query) :
    projectDirNames.findSome? (given body query) = givenAny body query projectDirNames := by
  simp only [projectDirNames, givenAny, given, List.findSome?_cons, List.findSome?_nil]
  cases hfirst : body "projectDir" with
  | some value => rfl
  | none =>
    cases hsecond : body "project_dir" with
    | none => cases Query.given query "projectDir" <;> rfl
    | some value =>
      have hquery : Query.given query "projectDir" = none := by
        rw [← Option.not_isSome_iff_eq_none]
        exact fun hquery => h ⟨hfirst, by rw [hsecond]; rfl, hquery⟩
      rw [hquery]
      rfl

theorem findSome?_given_of_hidden (h : DirectoryHidden body query) :
    projectDirNames.findSome? (given body query) = Query.given query "projectDir" := by
  obtain ⟨hfirst, -, hquery⟩ := h
  obtain ⟨value, hvalue⟩ := Option.isSome_iff_exists.mp hquery
  simp [projectDirNames, given, hfirst, hvalue]

theorem reads_optionalText_query (name : String) (result : Option String) :
    Reads (Query.given query name) none optionalText result ↔ result = Query.last? query name := by
  unfold Query.given
  cases Query.last? query name with
  | none => rfl
  | some text =>
    change Except.ok (some text) = Except.ok result ↔ _
    rw [Except.ok.injEq, eq_comm]

/-- A request is accepted when all its fields can be read, and then every field is what the body
gives for it, or else what the last pair of its name in the query string gives, or else its default.
GraphQL text is the buffer, and every other field comes from the query string. The only exception is
a project directory that the body names by its second name only and the query string by its
preferred one: it comes from the query string. -/
theorem body_takes_precedence (r : HttpRequest) (q : Request) :
    request r = .ok q ↔ ∃ body, Body r body ∧ q.ReadFrom (given body r.query) plainFlag ∧
      (¬ DirectoryHidden body r.query →
        Reads (givenAny body r.query projectDirNames) none optionalText q.projectDir) ∧
      (DirectoryHidden body r.query → q.projectDir = Query.last? r.query "projectDir") := by
  rw [request_eq_ok_iff]
  refine exists_congr fun body => and_congr_right fun _ => and_congr_right fun _ => ?_
  by_cases h : DirectoryHidden body r.query
  · rw [findSome?_given_of_hidden h, reads_optionalText_query]
    simp [h]
  · rw [findSome?_given h]
    simp [h]

/-- A request with one directory in its query string and another in its body. -/
def twoDirectories : HttpRequest :=
  { method := "POST", path := servicePath, query := "projectDir=%2Fa", headers := [],
    body := Utf8.encode "\x7b\"command\": \"setProjectDir\", \"project_dir\": \"/b\"\x7d".toList }

theorem body_twoDirectories (h : Body twoDirectories body) :
    body "projectDir" = none ∧ body "project_dir" = some (.str "/b") := by
  cases h with
  | graphql h =>
    have hother : isGraphql twoDirectories = false := by decide +kernel
    rw [hother] at h
    cases h
  | object h parsed =>
    have hfirst : ((Json.ofBytes? twoDirectories.body).bind (·.get? "projectDir")).isNone := by
      decide +kernel
    have hsecond : ((Json.ofBytes? twoDirectories.body).bind (·.get? "project_dir")).bind
        Json.str? = some "/b" := by
      decide +kernel
    rw [parsed] at hfirst hsecond
    refine ⟨Option.isNone_iff_eq_none.mp hfirst, ?_⟩
    obtain ⟨value, hvalue, htext⟩ := Option.bind_eq_some_iff.mp hsecond
    cases value <;> cases htext
    exact hvalue
  | empty h nothing =>
    have hsome : twoDirectories.body ≠ [] := by decide +kernel
    exact absurd nothing hsome

/-- The directory of the query string is the one that is used. -/
theorem query_hides_body :
    ¬ ∀ (r : HttpRequest) (q : Request), request r = .ok q → ∃ body, Body r body ∧
      Reads (givenAny body r.query projectDirNames) none optionalText q.projectDir := by
  intro hclaim
  obtain ⟨q, hq, hdirectory⟩ : ∃ q, request twoDirectories = .ok q ∧ q.projectDir = some "/a" := by
    have h : (request twoDirectories).toOption.map (·.projectDir) = some (some "/a") := by
      decide +kernel
    cases hq : request twoDirectories with
    | error => rw [hq] at h; cases h
    | ok q => rw [hq] at h; exact ⟨q, rfl, Option.some.inj h⟩
  obtain ⟨body, hbody, hreads⟩ := hclaim twoDirectories q hq
  obtain ⟨hfirst, hsecond⟩ := body_twoDirectories hbody
  have hgiven : givenAny body twoDirectories.query projectDirNames = some (.str "/b") := by
    simp [givenAny, projectDirNames, hfirst, hsecond]
  rw [hgiven, hdirectory] at hreads
  have hsame : Except.ok (some "/b") = (Except.ok (some "/a") : Outcome (Option String)) := hreads
  simp at hsame

end Site
end EmbeddedGraphQL
